import Mathlib.Data.Multiset.Lattice
import Mathlib.Order.Lattice.Nat
import Mathlib.Order.Nat
import Lprofile.Lib.Ledger
import Lprofile.Lib.Stdio
import Lprofile.Probe.Pmu

/-!
# The system calls of the probe library

The kernel answers each call from the trace of the calls made so far; a
`Kernel` is an arbitrary such function, so a statement about every `Kernel` is
about every pattern of successes and failures. `Os` carries the kernel, the
trace, oldest call first, and the contents of the files.

The perf descriptors, mapped pages and open files are resources in the sense of
`Lib.Ledger`: `openFds`, `mappedPages` and `openFiles` are what a trace holds. A
`LawfulKernel` hands out only descriptors and pages that are not held.
-/

namespace Lprofile.Probe

open Lprofile.Lib

/-- The `errno` of a failed call. -/
structure Errno where
  val : Nat
  pos : 0 < val
  deriving DecidableEq

def EMFILE : Errno := ⟨24, by decide⟩

/-- A mapped page, by its address; NULL is `none` where a pointer is stored. -/
abbrev Page := Nat

/-- `struct rlimit`. -/
structure Rlimit where
  cur : Nat
  max : Nat
  deriving DecidableEq

/-- The fields of `struct perf_event_attr` that the code sets (`size` apart). -/
structure PerfEventAttr where
  type : PerfType
  config : Nat
  disabled : Bool
  inherit : Bool
  excludeKernel : Bool
  excludeUser : Bool
  deriving DecidableEq

def PerfEventAttr.zero : PerfEventAttr := ⟨.hardware, 0, false, false, false, false⟩

/-- `PERF_EVENT_IOC_ENABLE` and `PERF_EVENT_IOC_DISABLE`. -/
inductive IoctlReq where
  | enable
  | disable
  deriving DecidableEq

inductive Syscall where
  | perfEventOpen (pid : Int) (attr : PerfEventAttr) (ret : Except Errno Nat)
  | getrlimit (ret : Option Rlimit)
  | setrlimit (l : Rlimit) (ok : Bool)
  | ioctl (fd : Int) (req : IoctlReq)
  | mmap (fd : Int) (ret : Option Page)
  | munmap (page : Page)
  | close (fd : Int)
  | fopen (path : CStr) (ok : Bool)
  | fclose (path : CStr)

/-- The answers of the kernel, after each trace. -/
structure Kernel where
  perfEventOpen : List Syscall → Except Errno Nat
  getrlimit : List Syscall → Option Rlimit
  setrlimit : List Syscall → Bool
  mmap : List Syscall → Option Page
  fopen : List Syscall → Bool

structure Os where
  kernel : Kernel
  trace : List Syscall
  files : CStr → List Byte

/-- A system before the first call. -/
def Os.boot (k : Kernel) : Os := ⟨k, [], fun _ => []⟩

/-- A kernel that grants everything, always with descriptor 3 and the same page. -/
def Kernel.granting : Kernel where
  perfEventOpen _ := .ok 3
  getrlimit _ := none
  setrlimit _ := false
  mmap _ := some 4096
  fopen _ := true

/-- A file open for writing; `data` is what was written through it. -/
structure OutFile where
  path : CStr
  data : List Byte
  deriving DecidableEq

namespace Os

def log (os : Os) (c : Syscall) : Os := { os with trace := os.trace ++ [c] }

/-- `sys_perf_event_open(attr, pid, -1, -1, 0)`. -/
def perfEventOpen (os : Os) (pid : Int) (attr : PerfEventAttr) : Except Errno Nat × Os :=
  let r := os.kernel.perfEventOpen os.trace
  (r, os.log (.perfEventOpen pid attr r))

def getrlimit (os : Os) : Option Rlimit × Os :=
  let r := os.kernel.getrlimit os.trace
  (r, os.log (.getrlimit r))

def setrlimit (os : Os) (l : Rlimit) : Bool × Os :=
  let r := os.kernel.setrlimit os.trace
  (r, os.log (.setrlimit l r))

def ioctl (os : Os) (fd : Int) (req : IoctlReq) : Os := os.log (.ioctl fd req)

def mmap (os : Os) (fd : Int) : Option Page × Os :=
  let r := os.kernel.mmap os.trace
  (r, os.log (.mmap fd r))

def munmap (os : Os) (page : Page) : Os := os.log (.munmap page)

def close (os : Os) (fd : Int) : Os := os.log (.close fd)

/-- `fopen(path, "w")`. -/
def fopen (os : Os) (path : CStr) : Option OutFile × Os :=
  if os.kernel.fopen os.trace then
    (some ⟨path, []⟩, { (os.log (.fopen path true)) with
      files := Function.update os.files path [] })
  else (none, os.log (.fopen path false))

/-- `fwrite`, assumed to store all it is given. -/
def fwrite (os : Os) (f : OutFile) (bytes : List Byte) : OutFile × Os :=
  let contents := writeAt (os.files f.path) f.data.length bytes
  ({ f with data := f.data ++ bytes },
   { os with files := Function.update os.files f.path contents })

def fclose (os : Os) (f : OutFile) : Os := os.log (.fclose f.path)

@[simp] theorem trace_log (os : Os) (c : Syscall) : (os.log c).trace = os.trace ++ [c] := rfl
@[simp] theorem kernel_log (os : Os) (c : Syscall) : (os.log c).kernel = os.kernel := rfl
@[simp] theorem files_log (os : Os) (c : Syscall) : (os.log c).files = os.files := rfl

end Os

/-! ## Descriptors, pages and files -/

def fdOp : Syscall → Option (LedgerOp Int)
  | .perfEventOpen _ _ (.ok fd) => some (.acquire fd)
  | .close fd => some (.release fd)
  | _ => none

def pageOp : Syscall → Option (LedgerOp Page)
  | .mmap _ (some p) => some (.acquire p)
  | .munmap p => some (.release p)
  | _ => none

/-- A handle is known by its path, which may be open more than once. -/
def fileOp : Syscall → Option (LedgerOp CStr)
  | .fopen path true => some (.acquire path)
  | .fclose path => some (.release path)
  | _ => none

def fdOps (tr : List Syscall) : List (LedgerOp Int) := tr.filterMap fdOp

def pageOps (tr : List Syscall) : List (LedgerOp Page) := tr.filterMap pageOp

def fileOps (tr : List Syscall) : List (LedgerOp CStr) := tr.filterMap fileOp

/-- The perf descriptors open after `tr`. -/
def openFds (tr : List Syscall) : Multiset Int := Ledger.held (fdOps tr)

/-- The pages mapped after `tr`. -/
def mappedPages (tr : List Syscall) : Multiset Page := Ledger.held (pageOps tr)

/-- The paths of the handles open after `tr`. -/
def openFiles (tr : List Syscall) : Multiset CStr := Ledger.held (fileOps tr)

/-- A successful open returns a descriptor that is not open, a successful `mmap` a page that
is not mapped. -/
structure LawfulKernel extends Kernel where
  open_fresh : ∀ tr fd, perfEventOpen tr = .ok fd → (fd : Int) ∉ openFds tr
  mmap_fresh : ∀ tr p, mmap tr = some p → p ∉ mappedPages tr

/-- A lawful kernel that grants everything: one above what is held. -/
def LawfulKernel.granting : LawfulKernel where
  perfEventOpen tr := .ok (((openFds tr).map Int.toNat).sup + 1)
  getrlimit _ := none
  setrlimit _ := false
  mmap tr := some ((mappedPages tr).sup + 1)
  fopen _ := true
  open_fresh tr fd h hmem := by
    cases h
    have hle := Multiset.le_sup (Multiset.mem_map_of_mem Int.toNat hmem)
    simp only [Int.toNat_natCast] at hle
    omega
  mmap_fresh tr p h hmem := by
    cases h
    exact Nat.not_succ_le_self _ (Multiset.le_sup hmem)

instance : Inhabited LawfulKernel := ⟨.granting⟩

end Lprofile.Probe
