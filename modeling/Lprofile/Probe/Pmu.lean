import Lprofile.Lib.Text

/-!
# The events the probe knows

`pmuList` is `pmu_list` of `pmu.c`, in its order, with the numbers that
`linux/perf_event.h` gives the constants; `profPmuFind` is the linear search
over it.
-/

namespace Lprofile.Probe

open Lprofile.Lib

/-- `enum perf_type_id`, as far as `pmu_list` uses it. -/
inductive PerfType where
  | hardware
  | hwCache
  deriving DecidableEq

structure ProfPmu where
  name : CStr
  type : PerfType
  config : Nat
  deriving DecidableEq

/-- A row with one of the `PERF_COUNT_HW_*` numbers. -/
def hw (name : String) (config : Nat) : ProfPmu := ⟨name.toList, .hardware, config⟩

/-- A cache row: cache id, operation (read, write, prefetch) and result (access, miss). -/
def hwCache (name : String) (id op result : Nat) : ProfPmu :=
  ⟨name.toList, .hwCache, id ||| (op <<< 8) ||| (result <<< 16)⟩

def pmuList : List ProfPmu := [
  hw "cpu-cycles" 0,
  hw "instructions" 1,
  hw "cache-references" 2,
  hw "cache-misses" 3,
  hw "bus-cycles" 6,
  hw "branch-instructions" 4,
  hw "branch-misses" 5,
  hwCache "l1d-read" 0 0 0,
  hwCache "l1d-read-misses" 0 0 1,
  hwCache "l1d-write" 0 1 0,
  hwCache "l1d-write-misses" 0 1 1,
  hwCache "l1d-prefetch" 0 2 0,
  hwCache "l1d-prefetch-misses" 0 2 1,
  hwCache "l1i-read" 1 0 0,
  hwCache "l1i-read-misses" 1 0 1,
  hwCache "l1i-write" 1 1 0,
  hwCache "l1i-write-misses" 1 1 1,
  hwCache "l1i-prefetch" 1 2 0,
  hwCache "l1i-prefetch-misses" 1 2 1,
  hwCache "ll-read" 2 0 0,
  hwCache "ll-read-misses" 2 0 1,
  hwCache "ll-write" 2 1 0,
  hwCache "ll-write-misses" 2 1 1,
  hwCache "ll-prefetch" 2 2 0,
  hwCache "ll-prefetch-misses" 2 2 1,
  hwCache "dtlb-read" 3 0 0,
  hwCache "dtlb-read-misses" 3 0 1,
  hwCache "dtlb-write" 3 1 0,
  hwCache "dtlb-write-misses" 3 1 1,
  hwCache "dtlb-prefetch" 3 2 0,
  hwCache "dtlb-prefetch-misses" 3 2 1,
  hwCache "itlb-read" 4 0 0,
  hwCache "itlb-read-misses" 4 0 1,
  hwCache "itlb-write" 4 1 0,
  hwCache "itlb-write-misses" 4 1 1,
  hwCache "itlb-prefetch" 4 2 0,
  hwCache "itlb-prefetch-misses" 4 2 1]

def profPmuFind (str : CStr) : Option ProfPmu := pmuList.find? fun pmu => pmu.name == str

end Lprofile.Probe
