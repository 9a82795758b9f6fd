import Lprofile.Probe.Os

/-!
# Event selectors

`struct prof_evsel` and its operations (`evsel.c`), over `Os`. An operation
takes the selector and the system and returns both. A selector's place in its
list, `node` and `evlist`, is the place in the list of `Probe.Evlist`;
`hwc_index` is only logged and is left out, as are the log lines.
-/

namespace Lprofile.Probe

open Lprofile.Lib

/-- What the C code would do next is undefined. -/
inductive Fault where
  /-- `threads[i]` past the end of the table -/
  | threadsIndex (i : Nat)
  /-- `records[i]` past the end of the buffer -/
  | recordsIndex (i : Nat)
  | nullTinfo
  | nullEvlist
  | nullPage
  | nullFile
  deriving DecidableEq

structure ProfEvsel where
  idx : Nat
  attr : PerfEventAttr
  fd : Int
  mmPage : Option Page
  isOpen : Bool
  isEnable : Bool
  name : CStr
  deriving DecidableEq

/-- `prof_evsel__new(NULL, name)`: zeroed memory and the name. -/
def profEvselNew (name : CStr) : ProfEvsel := ⟨0, .zero, 0, none, false, false, name⟩

def profEvselInit (e : ProfEvsel) (attr : PerfEventAttr) (idx : Nat) : ProfEvsel :=
  { e with idx := idx, attr := attr, isOpen := false }

/-- The `if (evsel->mm_page)` block of `disable` and of `enable`'s error path. -/
def unmapPage (e : ProfEvsel) (os : Os) : ProfEvsel × Os :=
  match e.mmPage with
  | some p => ({ e with mmPage := none }, os.munmap p)
  | none => (e, os)

/-- The last assignment is `is_enable = 1`, as in the source. -/
def profEvselDisable (e : ProfEvsel) (os : Os) : ProfEvsel × Os :=
  if !e.isEnable then (e, os)
  else if e.fd < 0 then (e, os)
  else
    let r := unmapPage e os
    ({ r.1 with isEnable := true }, r.2.ioctl e.fd .disable)

def profEvselEnable (e : ProfEvsel) (os : Os) : Int × ProfEvsel × Os :=
  if !e.isOpen then (1, e, os)
  else if e.isEnable then (0, e, os)
  else if e.fd < 0 then (1, e, os)
  else
    let os := os.ioctl e.fd .enable
    match os.mmap e.fd with
    | (some p, os) => (0, { e with mmPage := some p, isEnable := true }, os)
    | (none, os) =>
      let r := unmapPage { e with mmPage := none } os
      (-1, r.1, r.2.ioctl e.fd .disable)

def profEvselClose (e : ProfEvsel) (os : Os) : ProfEvsel × Os :=
  if !e.isOpen then (e, os)
  else
    let r := if e.isEnable then profEvselDisable e os else (e, os)
    if r.1.fd < 0 then r
    else ({ r.1 with fd := -1, isOpen := false }, r.2.close r.1.fd)

/-- The selector is freed; what is left is what happened to the system. -/
def profEvselDelete (e : ProfEvsel) (os : Os) : Os :=
  if e.isOpen then (profEvselClose e os).2 else os

/-- The limit `prof_evsel__open` asks for: `left` is 2 in state `NO_CHANGE`, 1 in `SET_TO_MAX`. -/
def raisedLimit (left : Nat) (l : Rlimit) : Rlimit :=
  if left = 2 then { l with cur := l.max }
  else ⟨(l.max + 1000) % 2 ^ 64, (l.max + 1000) % 2 ^ 64⟩

/-- The end of the `try_fallback` path. -/
def openFailed (e : ProfEvsel) (err : Errno) (os : Os) : Int × ProfEvsel × Os :=
  let r :=
    if 0 ≤ e.fd then ({ e with fd := -1 }, (os.ioctl e.fd .disable).close e.fd)
    else (e, os)
  (-err.val, { r.1 with isOpen := false }, r.2)

/-- `retry_open`. `left` counts `set_rlimit` down: 2 is `NO_CHANGE`, 1 `SET_TO_MAX`,
0 `INCREASED_MAX`. -/
def retryOpen (pid : Int) : Nat → ProfEvsel → Os → Int × ProfEvsel × Os
  | left, e, os =>
    match os.perfEventOpen pid e.attr with
    | (.ok fd, os) => (0, { e with fd := fd, isOpen := true }, os)
    | (.error err, os) =>
      let e := { e with fd := -1 }
      match left with
      | 0 => openFailed e err os
      | next + 1 =>
        if err = EMFILE then
          match os.getrlimit with
          | (some l, os) =>
            match os.setrlimit (raisedLimit (next + 1) l) with
            | (true, os) => retryOpen pid next e os
            | (false, os) => openFailed e err os
          | (none, os) => openFailed e err os
        else openFailed e err os

def profEvselOpen (e : ProfEvsel) (pid : Int) (os : Os) : Int × ProfEvsel × Os :=
  retryOpen pid 2 e os

/-! ## Event descriptions -/

/-- The two flags `__evsel__parse_opt` collects; unknown characters are logged and skipped. -/
def parseOptFlags : CStr → Bool × Bool
  | [] => (false, false)
  | c :: cs =>
    let (user, kernel) := parseOptFlags cs
    (c == 'u' || user, c == 'k' || kernel)

/-- `__evsel__parse_opt`. -/
def evselParseOpt (opt : CStr) (attr : PerfEventAttr) : PerfEventAttr :=
  let (user, kernel) := parseOptFlags opt
  if user && !kernel then { attr with excludeKernel := true }
  else if !user && kernel then { attr with excludeUser := true }
  else attr

/-- The name and the attributes of `<event_name>:<opts>`; `none` for an unknown event. -/
def profEvselParse (str : CStr) : Option (CStr × PerfEventAttr) :=
  let (name, opt) :=
    match strchr str ':' with
    | some p => (str.take p, if 1 < (str.drop p).length then some (str.drop (p + 1)) else none)
    | none => (str, none)
  match profPmuFind name with
  | none => none
  | some pmu =>
    let attr := { PerfEventAttr.zero with
      type := pmu.type, config := pmu.config, disabled := true, inherit := false,
      excludeKernel := true }
    match opt with
    | some opt => some (name, evselParseOpt opt attr)
    | none => some (name, attr)

/-! ## Reading a counter -/

/-- `struct perf_event_mmap_page`, as far as it is read. -/
structure PerfMmapPage where
  lock : BitVec 32
  timeEnabled : BitVec 64
  timeRunning : BitVec 64
  capUserTime : Bool
  capUserRdpmc : Bool
  timeOffset : BitVec 64
  timeMult : BitVec 32
  timeShift : BitVec 16
  index : BitVec 32
  pmcWidth : BitVec 16
  offset : BitVec 64

/-- What one round of the loop of `mmap_read_self` reads: the page, the two counters, and the
lock once more at the end. -/
structure MmapRound where
  pc : PerfMmapPage
  rdtsc : BitVec 64
  rdpmc : BitVec 64
  lockAfter : BitVec 32

inductive ReadSelf where
  | value (count enabled running : BitVec 64)
  /-- `rdpmc` is not possible: `0xffffffffffffffff`, and nothing is stored. -/
  | fallback

/-- `x << (64 - width) >> (64 - width)` on an `int64_t`. -/
def signExtendWidth (x : BitVec 64) (width : Nat) : BitVec 64 :=
  (x <<< (64 - width)).sshiftRight (64 - width)

/-- The nanoseconds since the last update of the page, from the cycle counter. -/
def cycDelta (pc : PerfMmapPage) (cyc : BitVec 64) : BitVec 64 :=
  let quot := cyc >>> pc.timeShift.toNat
  let rem := cyc &&& ((1#64 <<< pc.timeShift.toNat) - 1#64)
  pc.timeOffset + quot * pc.timeMult.setWidth 64 +
    ((rem * pc.timeMult.setWidth 64) >>> pc.timeShift.toNat)

/-- `mmap_read_self` over the rounds it makes; `delta` lives across them, as in the source.
`none`: the lock changed in every round listed. -/
def mmapReadSelf (delta : BitVec 64) : List MmapRound → Option ReadSelf
  | [] => none
  | r :: rs =>
    let pc := r.pc
    let delta :=
      if pc.capUserTime && pc.timeEnabled != pc.timeRunning then cycDelta pc r.rdtsc else delta
    let enabled := pc.timeEnabled + delta
    let count := signExtendWidth pc.offset pc.pmcWidth.toNat
    if pc.capUserRdpmc && pc.index != 0#32 then
      let count := count + signExtendWidth r.rdpmc pc.pmcWidth.toNat
      let running := pc.timeRunning + delta
      if r.lockAfter != pc.lock then mmapReadSelf delta rs
      else some (.value count enabled running)
    else some .fallback

def ReadSelf.toCount : ReadSelf → BitVec 64
  | .value count _ _ => count
  | .fallback => BitVec.allOnes 64

/-- The rounds of one call of `mmap_read_self` that ends. -/
structure PmcSample where
  rounds : List MmapRound
  ends : (mmapReadSelf 0 rounds).isSome

def PmcSample.count (s : PmcSample) : BitVec 64 := ((mmapReadSelf 0 s.rounds).get s.ends).toCount

/-- `prof_evsel__rdpmc`, when the page reads as `s`. -/
def profEvselRdpmc (e : ProfEvsel) (s : PmcSample) : Except Fault (BitVec 64) :=
  if !e.isEnable then .ok 0
  else
    match e.mmPage with
    | none => .error .nullPage
    | some _ => .ok s.count

end Lprofile.Probe
