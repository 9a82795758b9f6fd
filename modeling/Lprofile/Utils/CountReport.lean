import Lprofile.Lib.Getopt
import Lprofile.Probe.Creation
import Lprofile.Probe.Exit
import Lprofile.Utils.Report

/-!
# The report in count mode

`lprofile report -c -f <datafile>` is meant to print one line for each call of a
function: what passed between its entry and its exit. `Calls` are the calls of a
thread, matched by construction, and `Calls.lines` are those lines.

Two things stand against it. `case 'c'` of `ReportTest::parseArgs` has no `break`
and runs into the default case, so a command line with `-c` is refused
(`parseArgs_of_count`). And the stack of `processRecord` is local, so every
record finds it empty: in count mode `process` prints nothing, whatever the file
(`process_count`).
-/

namespace Lprofile.Utils

open Lprofile.Lib Lprofile.Probe

/-! ## The command -/

/-- The files there are, by their names. -/
abbrev Files := CStr → Option (List Byte)

/-- The members of `ReportTest`. -/
structure ReportTest where
  datafile : CStr
  isCount : Bool
  deriving DecidableEq

def ReportTest.initial : ReportTest := ⟨[], false⟩

/-- `ReportTest::staticUsage`. -/
def reportUsage : Output :=
  ⟨"./lprofile report -f <datafile> [OPTIONS]\n  OPTIONS:\n".toList, []⟩

/-- The default case of the switch. -/
def unknownOption (c : Char) : Output :=
  (Output.error ("Unknown option ".toList ++ c :: ", usage:".toList)).append reportUsage

/-- The loop of `ReportTest::parseArgs`, on what `getopt` returns. -/
def parseOpts (fs : Files) (t : ReportTest) : List Opt → Bool × ReportTest × Output
  | [] =>
    if t.datafile.length = 0 then (false, t, .error "No data file specified".toList)
    else (true, t, .none)
  | ⟨'f', some optarg⟩ :: opts =>
    if (fs optarg).isNone then
      (false, t, .error ("File ".toList ++ optarg ++ " doesn't exist".toList))
    else parseOpts fs { t with datafile := optarg } opts
  | ⟨'c', _⟩ :: _ =>
    -- there is no `break` after `is_count = true`
    (false, { t with isCount := true }, unknownOption 'c')
  | ⟨c, _⟩ :: _ => (false, t, unknownOption c)

/-- `ReportTest::parseArgs`. -/
def parseArgs (fs : Files) (args : List CStr) : Bool × ReportTest × Output :=
  parseOpts fs .initial (getopt "f:c".toList args)

/-- `main` on `lprofile report` and these arguments: the exit status and the output. -/
def reportMain (fs : Files) (args : List CStr) : Int × Output :=
  let p := parseArgs fs args
  if p.1 then
    let q := process p.2.1.isCount p.2.1.datafile (fs p.2.1.datafile)
    if q.1 then (0, p.2.2.append q.2)
    else (1, (p.2.2.append q.2).append (.error "Failed to perform test".toList))
  else (1, p.2.2.append (.error "Failed to parse arguments".toList))

/-! ## Calls -/

/-- Calls of one thread: a call of `func` with the calls inside it, and the calls after it. -/
inductive Calls where
  | done
  | call (func : BitVec 32) (entryCyc exitCyc : BitVec 64) (entry exit : Nat → PmcSample)
      (body rest : Calls)

namespace Calls

/-- The probes, in the order in which they are called. -/
def probes : Calls → List (ProbeCall × (Nat → PmcSample))
  | done => []
  | call func entryCyc exitCyc entry exit body rest =>
    (⟨func, false, entryCyc⟩, entry) :: body.probes ++
      (⟨func, true, exitCyc⟩, exit) :: rest.probes

/-- The records `__read_count` makes of them with the events `es`. -/
def records (es : List ProfEvsel) (calls : Calls) : List ProfRecord :=
  calls.probes.flatMap fun p => callRecords p.1 p.2 es

end Calls

/-- `"%u %lu %lu\n"` for an exit record and the entry record that matches it. -/
def countLine (pre post : ProfRecord) : CStr :=
  decimal post.funcIdx.toNat ++ ' ' :: decimal (post.ts - pre.ts).toNat ++
    ' ' :: decimal (post.count - pre.count).toNat ++ ['\n']

/-- One line for each exit record, in the order of the file. -/
def Calls.lines (es : List ProfEvsel) : Calls → List CStr
  | done => []
  | call func entryCyc exitCyc entry exit body rest =>
    body.lines es ++ List.zipWith countLine (callRecords ⟨func, false, entryCyc⟩ entry es)
      (callRecords ⟨func, true, exitCyc⟩ exit es) ++ rest.lines es

/-- `lprofile report -c -f <datafile>` accepts its arguments and prints the line of each call. -/
structure CallsReported (fs : Files) (datafile : CStr) (es : List ProfEvsel) (calls : Calls) :
    Prop where
  accepted : (parseArgs fs ["-c".toList, "-f".toList, datafile]).1 = true
  printed : (reportMain fs ["-c".toList, "-f".toList, datafile]).2.stdout =
    (calls.lines es).flatten

/-- `__read_count` for one probe after the other. -/
def readCounts : List (ProbeCall × (Nat → PmcSample)) → ProfTinfo → Os →
    Except Fault (ProfTinfo × Os)
  | [], t, os => .ok (t, os)
  | p :: ps, t, os =>
    match readCount p.1 p.2 t os with
    | .ok r => readCounts ps r.1 r.2
    | .error f => .error f

/-! ## Arguments -/

/-- A command line with `-c` is refused: at the option, or before. -/
theorem parseOpts_of_count (fs : Files) : ∀ {opts : List Opt} {t : ReportTest} {arg : Option CStr},
    ⟨'c', arg⟩ ∈ opts → (parseOpts fs t opts).1 = false
  | opt :: opts, t, arg, h => by
    unfold parseOpts
    split
    · rename_i he
      cases he
    · rename_i optarg opts' he
      cases he
      have hmem : ⟨'c', arg⟩ ∈ opts := by
        rcases List.mem_cons.1 h with he | h
        · cases he
        · exact h
      split
      · rfl
      · exact parseOpts_of_count fs hmem
    · rfl
    · rfl

theorem parseArgs_of_count (fs : Files) {args : List CStr} {arg : Option CStr}
    (h : ⟨'c', arg⟩ ∈ getopt "f:c".toList args) : (parseArgs fs args).1 = false :=
  parseOpts_of_count fs h

/-! ## Records -/

/-- The body of `processRecord` in count mode, with the stack it works on. -/
def countRecord (stack : List ProfRecord) (r : ProfRecord) : Bool × Output × List ProfRecord :=
  if r.pos = 0 then (true, .none, r :: stack)
  else
    match stack with
    | [] => (false, .error "Cannot find previous record".toList, [])
    | top :: _ =>
      if top.funcIdx = r.funcIdx ∨ top.pos = 0 then (true, ⟨countLine top r, []⟩, stack)
      else (true, .none, stack)

/-- Each call of `processRecord` has a stack of its own. -/
theorem processRecord_count (r : ProfRecord) :
    processRecord true r = ((countRecord [] r).1, (countRecord [] r).2.1) := by
  unfold processRecord countRecord
  simp only [↓reduceIte]
  split <;> rfl

theorem stdout_processRecord_count (r : ProfRecord) : (processRecord true r).2.stdout = [] := by
  rw [processRecord_count]
  unfold countRecord
  split <;> rfl

theorem stdout_processLoop_count (datafile : CStr) :
    ∀ {fuel : Nat} {fp : InFile Byte}, (processLoop true datafile fuel fp).1.stdout = []
  | 0, _ => rfl
  | fuel + 1, fp => by
    unfold processLoop
    split
    · rfl
    · split
      · split <;> rfl
      · rename_i bytes fp' _
        have hrec := stdout_processRecord_count (.ofBytes bytes)
        dsimp only
        split
        · simp only [Output.append, hrec, stdout_processLoop_count datafile, List.append_nil]
        · simp only [Output.append, hrec, Output.error, List.append_nil]

/-- **In count mode nothing is printed**, whatever is in the file. -/
theorem process_count (datafile : CStr) (file : Option (List Byte)) :
    (process true datafile file).2.stdout = [] := by
  cases file with
  | none => rfl
  | some bytes =>
    simp only [process, Output.append, Output.error, stdout_processLoop_count, List.append_nil]

/-! ## The file of a thread -/

theorem readCounts_spec {l : ProfEvlist} : ∀ (ps : List (ProbeCall × (Nat → PmcSample)))
    {t : ProfTinfo} {f : OutFile} (os : Os), RunningSlot t l f →
      ∃ t' f' os', readCounts ps t os = .ok (t', os') ∧ RunningSlot t' l f' ∧
        Recorded t f os (ps.flatMap fun p => callRecords p.1 p.2 l.entries) t' f' os'
  | [], t, f, os, h => ⟨t, f, os, rfl, h, Recorded.refl t f os⟩
  | p :: ps, t, f, os, h => by
    obtain ⟨t1, f1, os1, h1, hrun1, hrec1⟩ := readCount_spec h p.1 p.2 os
    obtain ⟨t2, f2, os2, h2, hrun2, hrec2⟩ := readCounts_spec ps os1 hrun1
    refine ⟨t2, f2, os2, by simp only [readCounts, h1, h2], hrun2, ?_⟩
    rw [List.flatMap_cons]
    exact hrec1.trans hrec2

/-- The probes of a thread with an empty buffer and an empty file, then `__destroy_tinfo`: the
file is the records. -/
theorem readCounts_file {t : ProfTinfo} {l : ProfEvlist} {path : CStr} {os : Os}
    (h : RunningSlot t l ⟨path, []⟩) (hnb : t.nbRecord = 0) (hfile : os.files path = [])
    (calls : Calls) :
    ∃ t' os', readCounts calls.probes t os = .ok (t', os') ∧
      (destroyTinfo t' os').2.files path = recordBytes (calls.records l.entries) := by
  obtain ⟨t', f', os', hr, hrun, hrec⟩ := readCounts_spec calls.probes os h
  refine ⟨t', os', hr, ?_⟩
  have hpath : outfile t'.tid = path := by
    rw [← hrun.path, hrec.path]
  have hstream : t.stream = [] := by
    rw [h.stream_eq]
    simp [ProfTinfo.buffer, hnb]
  rw [(destroyTinfo_spec hrun (hrec.own hfile)).2, hpath, Function.update_self, hrec.stream,
    hstream]
  rfl

theorem not_callsReported (fs : Files) (datafile : CStr) (es : List ProfEvsel) (calls : Calls) :
    ¬ CallsReported fs datafile es calls := by
  intro h
  have hc : ⟨'c', none⟩ ∈ getopt "f:c".toList ["-c".toList, "-f".toList, datafile] :=
    List.mem_cons_self
  have hrefused := parseArgs_of_count fs hc
  rw [h.accepted] at hrefused
  cases hrefused

/-- **The report of the calls is never made.** Whatever a thread calls, and whatever its events
are, its file holds the records of its probes, but `lprofile report -c -f` refuses its arguments;
and the count mode itself would print nothing for this file. -/
theorem calls_never_reported (t : ProfTinfo) (l : ProfEvlist) (path : CStr) (os : Os)
    (h : RunningSlot t l ⟨path, []⟩) (hnb : t.nbRecord = 0) (hfile : os.files path = [])
    (calls : Calls) :
    ∃ t' os', readCounts calls.probes t os = .ok (t', os') ∧
      (destroyTinfo t' os').2.files path = recordBytes (calls.records l.entries) ∧
      ∀ fs : Files, fs path = some ((destroyTinfo t' os').2.files path) →
        ¬ CallsReported fs path l.entries calls ∧ (process true path (fs path)).2.stdout = [] := by
  obtain ⟨t', os', hr, hbytes⟩ := readCounts_file h hnb hfile calls
  exact ⟨t', os', hr, hbytes, fun fs _ => ⟨not_callsReported fs path l.entries calls,
    process_count path (fs path)⟩⟩

/-! ## One call -/

/-- A function that is called and returns. -/
def oneActivation : Calls :=
  .call 7 1000 2000 (fun _ => closedPage) (fun _ => closedPage) .done .done

theorem solo_idle : ∃ l, RunningSlot (soloProc.slot 0) l ⟨outfile 100, []⟩ ∧
    l.entries.length = 1 ∧ soloProc.os.files (outfile 100) = [] := by
  have hidle := (lprobeInit_ok ⟨by decide, by decide⟩ soloInit_eq).idle 0 (by decide)
  obtain ⟨l, hl⟩ := hidle.running rfl
  refine ⟨l, hl, ?_, hidle.file rfl⟩
  have hlen : ((soloProc.slot 0).evlist.map fun l => l.entries.length) = some 1 := by decide
  rw [hl.evlist] at hlen
  exact Option.some.inj hlen

theorem calls_never_reported_one :
    ∃ (l : ProfEvlist) (t' : ProfTinfo) (os' : Os), (soloProc.slot 0).evlist = some l ∧
      readCounts oneActivation.probes (soloProc.slot 0) soloProc.os = .ok (t', os') ∧
      (destroyTinfo t' os').2.files (outfile 100) =
        recordBytes (oneActivation.records l.entries) ∧
      ∀ fs : Files, fs (outfile 100) = some ((destroyTinfo t' os').2.files (outfile 100)) →
        ¬ CallsReported fs (outfile 100) l.entries oneActivation ∧
          (process true (outfile 100) (fs (outfile 100))).2.stdout = [] := by
  obtain ⟨l, hl, -, hfile⟩ := solo_idle
  obtain ⟨t', os', h⟩ := calls_never_reported _ l _ _ hl rfl hfile oneActivation
  exact ⟨l, t', os', hl.evlist, h⟩

/-- One call with one event: there is one line to print, and the arguments are refused. -/
theorem one_call_refused :
    ∃ (l : ProfEvlist) (t' : ProfTinfo) (os' : Os),
      (soloProc.slot 0).evlist = some l ∧ l.entries.length = 1 ∧
      readCounts oneActivation.probes (soloProc.slot 0) soloProc.os = .ok (t', os') ∧
      (oneActivation.lines l.entries).length = 1 ∧
      ¬ CallsReported (fun _ => some ((destroyTinfo t' os').2.files (outfile 100))) (outfile 100)
        l.entries oneActivation := by
  obtain ⟨l, hl, hlen, hfile⟩ := solo_idle
  obtain ⟨t', os', hr, -⟩ := readCounts_file hl rfl hfile oneActivation
  refine ⟨l, t', os', hl.evlist, hlen, hr, ?_, not_callsReported _ _ _ _⟩
  simp [oneActivation, Calls.lines, callRecords, hlen]

end Lprofile.Utils
