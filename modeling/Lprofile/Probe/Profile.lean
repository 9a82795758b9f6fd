import Lprofile.Probe.Evlist
import Mathlib.Algebra.Ring.Nat
import Mathlib.Data.Fin.Tuple.Basic
import Mathlib.Data.List.FinRange

/-!
# The probe library

`globalinfo` and the functions of `profile.c`. `Proc` is the shared state of the
process: the table, the system, and one ghost, the slots `__init_thread` was
called for. What is thread-local in the source is `Tls`. An operation that would
leave the table or the buffer, or follow a NULL pointer, ends in a `Fault`.

The environment's contribution to a call is passed to it: the process id, the
entries `scandir` finds, the cycle counter and the pages `rdpmc` reads.
`func_counters`, `is_trace` and the log lines are left out, no function reads them.
-/

namespace Lprofile.Probe

open Lprofile.Lib

abbrev profThreadMax : Nat := 64

instance : NeZero profThreadMax := ⟨by decide⟩

/-- `PROF_RECORD_CACHE`. -/
abbrev profRecordCache : Nat := 65536

abbrev uintMax : Nat := 4294967295

/-! ## Records -/

structure ProfRecord where
  ts : BitVec 64
  funcIdx : BitVec 16
  pos : BitVec 8
  evIdx : BitVec 8
  count : BitVec 64
  deriving DecidableEq

/-- `sizeof(struct prof_record)`: four bytes of padding before `count`. -/
abbrev profRecordSize : Nat := 24

/-- The bytes of a record in memory. The padding of the static buffer is zero. -/
def ProfRecord.bytes (r : ProfRecord) : List Byte :=
  leBytes 8 r.ts.toNat ++ leBytes 2 r.funcIdx.toNat ++ leBytes 1 r.pos.toNat ++
    leBytes 1 r.evIdx.toNat ++ leBytes 4 0 ++ leBytes 8 r.count.toNat

/-- The record a reader sees in `bs`. -/
def ProfRecord.ofBytes (bs : List Byte) : ProfRecord where
  ts := BitVec.ofNat 64 (leVal (bs.take 8))
  funcIdx := BitVec.ofNat 16 (leVal ((bs.drop 8).take 2))
  pos := BitVec.ofNat 8 (leVal ((bs.drop 10).take 1))
  evIdx := BitVec.ofNat 8 (leVal ((bs.drop 11).take 1))
  count := BitVec.ofNat 64 (leVal ((bs.drop 16).take 8))

def recordBytes (rs : List ProfRecord) : List Byte := rs.flatMap ProfRecord.bytes

/-! ## Threads -/

inductive ProfState where
  | uninit
  | running
  | error
  deriving DecidableEq

/-- `struct prof_tinfo`. -/
structure ProfTinfo where
  tid : Int
  state : ProfState
  evlist : Option ProfEvlist
  outputFile : Option OutFile
  nbRecord : Nat
  records : Nat → ProfRecord

/-- The records waiting in the buffer. -/
def ProfTinfo.buffer (t : ProfTinfo) : List ProfRecord := (List.range t.nbRecord).map t.records

/-- `struct prof_info`. -/
structure ProfInfo where
  evlistStr : Option CStr
  isError : Bool
  minIndex : Nat
  maxIndex : Nat
  sampleFreq : Nat
  flog : Option OutFile
  threads : Fin profThreadMax → ProfTinfo
  threadNb : Nat
  threadNid : Nat

/-- The state shared by all threads; `inits` is the ghost list of the slots passed to
`__init_thread`, oldest first. -/
structure Proc where
  info : ProfInfo
  os : Os
  inits : List (Fin profThreadMax)

/-- `threadinfo`, `is_ignore` and `threadid`. -/
structure Tls where
  threadinfo : Option (Fin profThreadMax)
  isIgnore : Bool
  threadid : Int
  deriving DecidableEq

def Tls.initial : Tls := ⟨none, false, -1⟩

def ProfTinfo.initial : ProfTinfo := ⟨0, .uninit, none, none, 0, fun _ => ⟨0, 0, 0, 0, 0⟩⟩

/-- The initial value of `globalinfo`. -/
def globalinfo : ProfInfo where
  evlistStr := none
  isError := false
  minIndex := uintMax
  maxIndex := 0
  sampleFreq := 0
  flog := none
  threads := fun _ => .initial
  threadNb := 0
  threadNid := 0

def Proc.initial (os : Os) : Proc := ⟨globalinfo, os, []⟩

namespace Proc

def slot (g : Proc) (i : Fin profThreadMax) : ProfTinfo := g.info.threads i

def setSlot (g : Proc) (i : Fin profThreadMax) (t : ProfTinfo) : Proc :=
  { g with info := { g.info with threads := Function.update g.info.threads i t } }

@[simp] theorem slot_setSlot_self (g : Proc) (i : Fin profThreadMax) (t : ProfTinfo) :
    (g.setSlot i t).slot i = t := by
  simp only [slot, setSlot, Function.update_self]

theorem slot_setSlot_ne (g : Proc) {i j : Fin profThreadMax} (t : ProfTinfo) (h : j ≠ i) :
    (g.setSlot i t).slot j = g.slot j := by
  simp only [slot, setSlot, Function.update_of_ne h]

end Proc

/-! ## Registration -/

/-- `__update_threadnid`. The sum needs no wrap-around: 64 divides 2^32. -/
def updateThreadnid (info : ProfInfo) : ProfInfo :=
  if profThreadMax ≤ info.threadNb then { info with threadNid := uintMax }
  else
    match (List.range' 1 (profThreadMax - 1)).find? fun i =>
        (info.threads (Fin.ofNat profThreadMax (info.threadNid + i))).tid == 0 with
    | some i => { info with threadNid := (info.threadNid + i) % profThreadMax }
    | none => info

/-- `__find_tinfo`: the first slot with this tid. -/
def findTinfo (info : ProfInfo) (pid : Int) : Option (Fin profThreadMax) :=
  (List.finRange profThreadMax).find? fun i => (info.threads i).tid == pid

/-- `__create_evlist`. -/
def createEvlist (info : ProfInfo) (tinfo : ProfTinfo) (os : Os) : Int × ProfTinfo × Os :=
  let a := profEvlistAddFromStr (profEvlistNew tinfo.tid) info.evlistStr
  if a.1 < 0 then (-1, tinfo, profEvlistDelete a.2 os)
  else
    let s := profEvlistStart a.2 os
    if s.1 < 0 then (-1, tinfo, profEvlistDelete s.2.1 s.2.2)
    else (0, { tinfo with evlist := some s.2.1, state := .running }, s.2.2)

/-- The name of a thread's output file, `prof.%u`. -/
def outfile (tid : Int) : CStr := snprintf 64 ("prof.".toList ++ decimal (tid % 2 ^ 32).toNat)

/-- `__init_thread` on the slot's own data. -/
def initTinfo (info : ProfInfo) (tinfo : ProfTinfo) (os : Os) : ProfTinfo × Os :=
  let r := createEvlist info tinfo os
  let tinfo := if r.1 ≠ 0 then { r.2.1 with state := .error } else r.2.1
  match r.2.2.fopen (outfile tinfo.tid) with
  | (some f, os) => ({ tinfo with outputFile := some f }, os)
  | (none, os) => ({ tinfo with outputFile := none, state := .error }, os)

/-- `__init_thread`. -/
def initThread (g : Proc) (id : Fin profThreadMax) : Proc :=
  let r := initTinfo g.info (g.slot id) g.os
  { g.setSlot id r.1 with os := r.2, inits := g.inits ++ [id] }

/-- The slot `threads[nid]`. -/
def slotAt (nid : Nat) : Except Fault (Fin profThreadMax) :=
  if h : nid < profThreadMax then .ok ⟨nid, h⟩ else .error (.threadsIndex nid)

/-- `thread_nb ++`, `__init_thread` and `__update_threadnid`. -/
def takeSlot (g : Proc) (id : Fin profThreadMax) : Proc :=
  let g := { g with info := { g.info with threadNb := g.info.threadNb + 1 } }
  let g := initThread g id
  { g with info := updateThreadnid g.info }

/-- The body of `lprobe_thread_init` under `thread_lock`. -/
def registerTid (pid : Int) (g : Proc) : Except Fault Proc :=
  match slotAt g.info.threadNid with
  | .ok id => .ok (takeSlot (g.setSlot id { g.slot id with tid := pid }) id)
  | .error f => .error f

/-- `lprobe_thread_init`, for the thread with this tid. -/
def lprobeThreadInit (pid : Int) (g : Proc) : Except Fault Proc :=
  if g.info.threadNid = uintMax then .ok g else registerTid pid g

/-- `__filter`: no entry that starts with a dot. -/
def dirFilter (name : CStr) : Bool := name.head? != some '.'

/-- One round of the loop of `__scan_threads`. -/
def scanEntry (g : Proc) (name : CStr) : Except Fault Proc :=
  match slotAt g.info.threadNid with
  | .ok id =>
    let g := g.setSlot id { g.slot id with tid := atoi name }
    if 0 < atoi name then .ok (takeSlot g id) else .ok g
  | .error f => .error f

def scanEntries (g : Proc) : List CStr → Except Fault Proc
  | [] => .ok g
  | name :: names =>
    match scanEntry g name with
    | .ok g => scanEntries g names
    | .error f => .error f

/-- `__scan_threads`; `namelist` is the directory's entries, `none` if `scandir` fails. -/
def scanThreads (pid : Int) (namelist : Option (List CStr)) (g : Proc) : Except Fault Proc :=
  match namelist with
  | none => registerTid pid g
  | some names =>
    let items := names.filter dirFilter
    if items.length ≤ 0 then registerTid pid g
    else scanEntries g (items.take profThreadMax)

/-- `fail_close_log`: `fclose` of a NULL log handle is a fault. -/
def failCloseLog (tls : Tls) (g : Proc) : Except Fault (Int × Tls × Proc) :=
  match g.info.flog with
  | none => .error .nullFile
  | some f =>
    .ok (-1, tls, { g with info := { g.info with flog := none, isError := true }, os := g.os.fclose f })

/-- `lprobe_init` in the process `pid`; `mutexOk` is the result of `pthread_mutex_init`. -/
def lprobeInit (evlistStr : CStr) (minId maxId freq : Nat) (pid : Int) (mutexOk : Bool)
    (namelist : Option (List CStr)) (tls : Tls) (g : Proc) : Except Fault (Int × Tls × Proc) :=
  let tls := { tls with threadid := pid }
  let g := { g with info := { g.info with
    maxIndex := maxId, minIndex := minId, sampleFreq := freq, evlistStr := some evlistStr } }
  if !mutexOk then failCloseLog tls g
  else
    match scanThreads pid namelist g with
    | .error f => .error f
    | .ok g =>
      match findTinfo g.info pid with
      | none => .error .nullTinfo
      | some i =>
        let tls := { tls with threadinfo := some i }
        if (g.slot i).state = .error then failCloseLog tls g else .ok (0, tls, g)

/-! ## Exit -/

/-- `lprobe_thread_exit` does nothing. -/
def lprobeThreadExit (g : Proc) : Proc := g

/-- `__destroy_tinfo`. -/
def destroyTinfo (t : ProfTinfo) (os : Os) : ProfTinfo × Os :=
  let r :=
    match t.outputFile with
    | none => (t, os)
    | some f =>
      let w :=
        if 0 < t.nbRecord then ({ t with nbRecord := 0 }, os.fwrite f (recordBytes t.buffer))
        else (t, f, os)
      ({ w.1 with outputFile := none }, w.2.2.fclose w.2.1)
  let r :=
    match r.1.evlist with
    | none => r
    | some evlist => ({ r.1 with evlist := none }, profEvlistDelete evlist r.2)
  ({ r.1 with tid := -1, state := .uninit }, r.2)

/-- One round of the loop of `lprobe_exit`. -/
def exitSlot (g : Proc) (i : Fin profThreadMax) : Proc :=
  if (g.slot i).tid = -1 then g
  else if (g.slot i).state = .running then
    let r := destroyTinfo (g.slot i) g.os
    { g.setSlot i r.1 with os := r.2 }
  else g

def lprobeExit (g : Proc) : Proc :=
  if g.info.isError then g
  else
    let g :=
      match g.info.flog with
      | none => g
      | some f => { g with info := { g.info with flog := none }, os := g.os.fclose f }
    (List.finRange profThreadMax).foldl exitSlot g

/-! ## Probes -/

/-- The arguments of a probe call, and the cycle counter it reads. -/
structure ProbeCall where
  func : BitVec 32
  isPost : Bool
  cyc : BitVec 64
  deriving DecidableEq

/-- The record for the event at position `i` of the list. -/
def ProbeCall.record (c : ProbeCall) (i : Nat) (count : BitVec 64) : ProfRecord :=
  ⟨c.cyc, c.func.setWidth 16, if c.isPost then 1 else 0, BitVec.ofNat 8 i, count⟩

/-- One round of the loop of `__read_count`, at the event `e` in position `i`. -/
def readEvent (c : ProbeCall) (i : Nat) (e : ProfEvsel) (s : PmcSample) (t : ProfTinfo) (os : Os) :
    Except Fault (ProfTinfo × Os) :=
  match profEvselRdpmc e s with
  | .error f => .error f
  | .ok count =>
    if t.nbRecord < profRecordCache then
      let t := { t with
        records := Function.update t.records t.nbRecord (c.record i count)
        nbRecord := t.nbRecord + 1 }
      if t.nbRecord = profRecordCache then
        match t.outputFile with
        | none => .error .nullFile
        | some f =>
          let w := os.fwrite f (recordBytes t.buffer)
          .ok ({ t with outputFile := some w.1, nbRecord := 0 }, w.2)
      else .ok (t, os)
    else .error (.recordsIndex t.nbRecord)

def readEvents (c : ProbeCall) (samples : Nat → PmcSample) :
    Nat → List ProfEvsel → ProfTinfo → Os → Except Fault (ProfTinfo × Os)
  | _, [], t, os => .ok (t, os)
  | i, e :: es, t, os =>
    match readEvent c i e (samples i) t os with
    | .ok r => readEvents c samples (i + 1) es r.1 r.2
    | .error f => .error f

/-- `__read_count`; `samples i` is what the page of event `i` reads as. -/
def readCount (c : ProbeCall) (samples : Nat → PmcSample) (t : ProfTinfo) (os : Os) :
    Except Fault (ProfTinfo × Os) :=
  match t.evlist with
  | none => .error .nullEvlist
  | some evlist => readEvents c samples 0 evlist.entries t os

/-- The `if (threadinfo == NULL)` block of the probes. -/
def lookupTinfo (tid : Int) (tls : Tls) (info : ProfInfo) : Tls :=
  match tls.threadinfo with
  | some _ => tls
  | none =>
    match findTinfo info tid with
    | none => { tls with threadid := tid, isIgnore := true }
    | some i => ⟨some i, false, tid⟩

/-- A probe up to the call of `__read_count`: the slot it will record in, if any. -/
def enterProbe (tid : Int) (tls : Tls) (info : ProfInfo) : Tls × Option (Fin profThreadMax) :=
  if tls.isIgnore then (tls, none)
  else
    let tls := lookupTinfo tid tls info
    match tls.threadinfo with
    | none => (tls, none)
    | some i => (tls, if (info.threads i).state = .running then some i else none)

/-- The probes: `lprobe_func_entry` and `lprobe_func_exit` differ only in `is_post`. -/
def lprobeFunc (c : ProbeCall) (samples : Nat → PmcSample) (tid : Int) (tls : Tls) (g : Proc) :
    Except Fault (Tls × Proc) :=
  match enterProbe tid tls g.info with
  | (tls, none) => .ok (tls, g)
  | (tls, some i) =>
    match readCount c samples (g.slot i) g.os with
    | .error f => .error f
    | .ok r => .ok (tls, { g.setSlot i r.1 with os := r.2 })

def lprobeFuncEntry (func : BitVec 32) (cyc : BitVec 64) :=
  lprobeFunc ⟨func, false, cyc⟩

def lprobeFuncExit (func : BitVec 32) (cyc : BitVec 64) :=
  lprobeFunc ⟨func, true, cyc⟩

end Lprofile.Probe
