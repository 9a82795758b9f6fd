import Lprofile.Lib.Lines
import Lprofile.Utils.Report

/-!
# Reading the report back

`lprofile report` turns a data file into text, and what comes after it works on that
text. `readReport` takes a line apart at its spaces and reads the numbers. On any
file, whole or cut off, of whatever bytes, it gives back the records that are there
in full, field by field (`report_readable`): no field is lost in the text, and the
padding of a record is not in it.
-/

namespace Lprofile.Utils

open Lprofile.Lib Lprofile.Probe

/-! ## The records of a file -/

/-- The records that are in the file in full. -/
def fullRecords (bytes : List Byte) : List ProfRecord :=
  (List.range (bytes.length / profRecordSize)).map fun i =>
    .ofBytes ((bytes.drop (profRecordSize * i)).take profRecordSize)

theorem fullRecords_short {bytes : List Byte} (h : bytes.length < profRecordSize) :
    fullRecords bytes = [] := by
  rw [fullRecords, Nat.div_eq_of_lt h]
  rfl

theorem fullRecords_long {bytes : List Byte} (h : profRecordSize ≤ bytes.length) :
    fullRecords bytes =
      .ofBytes (bytes.take profRecordSize) :: fullRecords (bytes.drop profRecordSize) := by
  have hdiv : bytes.length / profRecordSize =
      (bytes.drop profRecordSize).length / profRecordSize + 1 := by
    rw [List.length_drop, ← Nat.add_div_right _ (by decide), Nat.sub_add_cancel h]
  rw [fullRecords, hdiv, List.range_succ_eq_map, List.map_cons, List.map_map, Nat.mul_zero,
    List.drop_zero, fullRecords]
  refine congrArg _ (List.map_congr_left fun i _ => ?_)
  simp only [Function.comp, List.drop_drop, Nat.succ_eq_add_one]
  rw [Nat.mul_succ, Nat.add_comm]

/-- The loop on any file: one line for each record. -/
theorem processLoop_lines (datafile : CStr) : ∀ {fuel : Nat} {bytes : List Byte},
    bytes.length < fuel → processLoop false datafile fuel ⟨bytes, false⟩ =
      (⟨(fullRecords bytes).flatMap recordLine, []⟩, (fullRecords bytes).length)
  | fuel + 1, bytes, hfuel => by
    by_cases hlen : bytes.length < profRecordSize
    · simp [processLoop, fread_short hlen, fullRecords_short hlen, Output.none]
    · have hle : profRecordSize ≤ bytes.length := Nat.le_of_not_lt hlen
      have hread : fread profRecordSize ⟨bytes, false⟩ =
          (some (bytes.take profRecordSize), ⟨bytes.drop profRecordSize, false⟩) := by
        simp only [fread, hle, ↓reduceIte]
      have hrest : (bytes.drop profRecordSize).length < fuel := by
        rw [List.length_drop]
        have : 0 < profRecordSize := by decide
        omega
      simp only [processLoop, Bool.false_eq_true, ↓reduceIte, hread, processRecord,
        processLoop_lines datafile hrest, fullRecords_long hle]
      simp [Output.append]

theorem stdout_process (datafile : CStr) (bytes : List Byte) :
    (process false datafile (some bytes)).2.stdout = (fullRecords bytes).flatMap recordLine := by
  simp only [process, processLoop_lines datafile (Nat.lt_succ_self _), Output.append,
    Output.error, List.append_nil]

/-- What the probe library writes is its own records. -/
theorem fullRecords_recordBytes (rs : List ProfRecord) : fullRecords (recordBytes rs) = rs := by
  induction rs with
  | nil => rfl
  | cons r rs ih =>
    have hbytes : recordBytes (r :: rs) = r.bytes ++ recordBytes rs := List.flatMap_cons
    have hlen := length_bytes r
    have hle : profRecordSize ≤ (recordBytes (r :: rs)).length := by
      rw [hbytes, List.length_append, hlen]
      exact Nat.le_add_right _ _
    rw [fullRecords_long hle, hbytes, List.take_left' hlen, List.drop_left' hlen, ofBytes_bytes, ih]

/-! ## The reader -/

def readRecord (line : CStr) : Option ProfRecord :=
  match (line.splitOn ' ').map readNat with
  | [ts, funcIdx, pos, evIdx, count] => some ⟨BitVec.ofNat 64 ts, BitVec.ofNat 16 funcIdx,
      BitVec.ofNat 8 pos, BitVec.ofNat 8 evIdx, BitVec.ofNat 64 count⟩
  | _ => none

def readReport (text : CStr) : Option (List ProfRecord) := (linesOf text).mapM readRecord

/-- The fields of a record in the order of its line. -/
def recordFields (r : ProfRecord) : List Nat :=
  [r.ts.toNat, r.funcIdx.toNat, r.pos.toNat, r.evIdx.toNat, r.count.toNat]

theorem recordLine_eq (r : ProfRecord) :
    recordLine r = [' '].intercalate ((recordFields r).map decimal) ++ ['\n'] := by
  simp [recordLine, recordFields, List.intercalate, List.intersperse]

theorem readRecord_fields (r : ProfRecord) :
    readRecord ([' '].intercalate ((recordFields r).map decimal)) = some r := by
  have hsplit : ([' '].intercalate ((recordFields r).map decimal)).splitOn ' ' =
      (recordFields r).map decimal := by
    refine List.splitOn_intercalate ' ' (fun l hl => ?_) (by simp [recordFields])
    obtain ⟨n, -, rfl⟩ := List.mem_map.1 hl
    exact notMem_decimal (by decide) n
  have hnums : ((recordFields r).map decimal).map readNat = recordFields r := by
    rw [List.map_map]
    exact (List.map_congr_left fun n _ => readNat_decimal n).trans (List.map_id _)
  rw [readRecord, hsplit, hnums]
  simp [recordFields]

theorem readReport_lines (rs : List ProfRecord) :
    readReport (rs.flatMap recordLine) = some rs := by
  have hlines : rs.flatMap recordLine =
      (rs.map fun r => [' '].intercalate ((recordFields r).map decimal)).flatMap (· ++ ['\n']) := by
    rw [List.flatMap_map]
    exact congrArg (rs.flatMap ·) (funext recordLine_eq)
  rw [readReport, hlines, linesOf_flatMap]
  · exact mapM_map_of_inverse readRecord_fields rs
  · intro l hl
    obtain ⟨r, -, rfl⟩ := List.mem_map.1 hl
    refine notMem_intercalate (by decide) fun l hl => ?_
    obtain ⟨n, -, rfl⟩ := List.mem_map.1 hl
    exact notMem_decimal (by decide) n

/-- **The report of any data file reads back** as the records that are in the file in full, and two
files have the same report exactly when they have the same records. -/
theorem report_readable (datafile : CStr) (bytes : List Byte) :
    (process false datafile (some bytes)).1 = true ∧
      readReport (process false datafile (some bytes)).2.stdout = some (fullRecords bytes) ∧
      ∀ bytes', (process false datafile (some bytes')).2.stdout =
          (process false datafile (some bytes)).2.stdout ↔
        fullRecords bytes' = fullRecords bytes := by
  refine ⟨rfl, by rw [stdout_process, readReport_lines], fun bytes' => ?_⟩
  simp only [stdout_process]
  constructor
  · intro h
    have hread := congrArg readReport h
    rw [readReport_lines, readReport_lines] at hread
    exact Option.some.inj hread
  · intro h
    rw [h]

end Lprofile.Utils
