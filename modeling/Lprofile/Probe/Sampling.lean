import Lprofile.Probe.Pipeline

/-!
# The range of functions and the sampling frequency

`lprobe_init` stores the smallest and the largest function number and the
sampling frequency of `-F`. `withRange` puts other values there; every operation
of the library commutes with it, so does a whole run (`run_withRange`), and what
a process leaves on the system is the same whatever the three values are.
-/

namespace Lprofile.Probe

open Lprofile.Lib

def ProfInfo.withRange (minId maxId freq : Nat) (info : ProfInfo) : ProfInfo :=
  { info with minIndex := minId, maxIndex := maxId, sampleFreq := freq }

def Proc.withRange (minId maxId freq : Nat) (g : Proc) : Proc :=
  { g with info := g.info.withRange minId maxId freq }

def PipeSt.withRange (minId maxId freq : Nat) (s : PipeSt) : PipeSt :=
  { s with proc := s.proc.withRange minId maxId freq }

/-- A profiled process: `lprobe_init` in its main thread `pid`, then the steps `as`. What is seen
of it is the result of `lprobe_init` and the system at the end. -/
def profiledRun (evlistStr : CStr) (minId maxId freq : Nat) (pid : Int) (mutexOk : Bool)
    (namelist : Option (List CStr)) (os : Os) (as : List PipeStep) : Except Fault (Int × Os) :=
  match lprobeInit evlistStr minId maxId freq pid mutexOk namelist .initial (.initial os) with
  | .error f => .error f
  | .ok (r, tls, g) => (pipeMachine.run (.start pid tls g) as).map fun s => (r, s.proc.os)

section

variable (minId maxId freq : Nat)

@[simp] theorem slot_withRange (g : Proc) (i : Fin profThreadMax) :
    (g.withRange minId maxId freq).slot i = g.slot i := rfl

@[simp] theorem threadNid_withRange (g : Proc) :
    (g.withRange minId maxId freq).info.threadNid = g.info.threadNid := rfl

@[simp] theorem flog_withRange (g : Proc) :
    (g.withRange minId maxId freq).info.flog = g.info.flog := rfl

@[simp] theorem findTinfo_withRange (g : Proc) (pid : Int) :
    findTinfo (g.withRange minId maxId freq).info pid = findTinfo g.info pid := rfl

theorem setSlot_withRange (g : Proc) (i : Fin profThreadMax) (t : ProfTinfo) :
    (g.withRange minId maxId freq).setSlot i t =
      (g.setSlot i t).withRange minId maxId freq := rfl

/-! ## Registration -/

theorem updateThreadnid_withRange (info : ProfInfo) :
    updateThreadnid (info.withRange minId maxId freq) =
      (updateThreadnid info).withRange minId maxId freq := by
  unfold updateThreadnid
  show (if profThreadMax ≤ info.threadNb then _ else _) = _
  by_cases hfull : profThreadMax ≤ info.threadNb
  · rw [if_pos hfull, if_pos hfull]
    rfl
  · rw [if_neg hfull, if_neg hfull]
    cases h : (List.range' 1 (profThreadMax - 1)).find? fun i =>
      (info.threads (Fin.ofNat profThreadMax (info.threadNid + i))).tid == 0 with
    | none => simp only [ProfInfo.withRange, h]
    | some i => simp only [ProfInfo.withRange, h]

theorem takeSlot_withRange (g : Proc) (id : Fin profThreadMax) :
    takeSlot (g.withRange minId maxId freq) id =
      (takeSlot g id).withRange minId maxId freq := by
  unfold takeSlot
  dsimp only [Proc.withRange]
  rw [← updateThreadnid_withRange]
  rfl

theorem registerTid_withRange (pid : Int) (g : Proc) :
    registerTid pid (g.withRange minId maxId freq) =
      (registerTid pid g).map (Proc.withRange minId maxId freq) := by
  unfold registerTid
  rw [threadNid_withRange]
  cases slotAt g.info.threadNid with
  | error f => rfl
  | ok id =>
    dsimp only
    rw [slot_withRange, setSlot_withRange, takeSlot_withRange]
    rfl

theorem lprobeThreadInit_withRange (pid : Int) (g : Proc) :
    lprobeThreadInit pid (g.withRange minId maxId freq) =
      (lprobeThreadInit pid g).map (Proc.withRange minId maxId freq) := by
  unfold lprobeThreadInit
  rw [threadNid_withRange]
  split
  · rfl
  · exact registerTid_withRange minId maxId freq pid g

theorem scanEntry_withRange (g : Proc) (name : CStr) :
    scanEntry (g.withRange minId maxId freq) name =
      (scanEntry g name).map (Proc.withRange minId maxId freq) := by
  unfold scanEntry
  rw [threadNid_withRange]
  cases slotAt g.info.threadNid with
  | error f => rfl
  | ok id =>
    dsimp only
    rw [slot_withRange, setSlot_withRange, takeSlot_withRange]
    split <;> rfl

theorem scanEntries_withRange : ∀ (g : Proc) (names : List CStr),
    scanEntries (g.withRange minId maxId freq) names =
      (scanEntries g names).map (Proc.withRange minId maxId freq)
  | _, [] => rfl
  | g, name :: names => by
    simp only [scanEntries, scanEntry_withRange]
    cases scanEntry g name with
    | error f => rfl
    | ok g' => exact scanEntries_withRange g' names

theorem scanThreads_withRange (pid : Int) (namelist : Option (List CStr)) (g : Proc) :
    scanThreads pid namelist (g.withRange minId maxId freq) =
      (scanThreads pid namelist g).map (Proc.withRange minId maxId freq) := by
  unfold scanThreads
  cases namelist with
  | none => exact registerTid_withRange minId maxId freq pid g
  | some names =>
    dsimp only
    split
    · exact registerTid_withRange minId maxId freq pid g
    · exact scanEntries_withRange minId maxId freq g _

theorem failCloseLog_withRange (tls : Tls) (g : Proc) :
    failCloseLog tls (g.withRange minId maxId freq) =
      (failCloseLog tls g).map fun r => (r.1, r.2.1, r.2.2.withRange minId maxId freq) := by
  unfold failCloseLog
  rw [flog_withRange]
  cases g.info.flog <;> rfl

/-- `lprobe_init` only stores the three values. -/
theorem lprobeInit_withRange (evlistStr : CStr) (minId' maxId' freq' : Nat) (pid : Int)
    (mutexOk : Bool) (namelist : Option (List CStr)) (tls : Tls) (g : Proc) :
    lprobeInit evlistStr minId maxId freq pid mutexOk namelist tls g =
      (lprobeInit evlistStr minId' maxId' freq' pid mutexOk namelist tls g).map
        fun r => (r.1, r.2.1, r.2.2.withRange minId maxId freq) := by
  let g' : Proc := { g with info := { g.info with
    maxIndex := maxId', minIndex := minId', sampleFreq := freq', evlistStr := some evlistStr } }
  have hstore : ({ g with info := { g.info with
      maxIndex := maxId, minIndex := minId, sampleFreq := freq,
      evlistStr := some evlistStr } } : Proc) = g'.withRange minId maxId freq := rfl
  unfold lprobeInit
  dsimp only
  rw [hstore]
  cases mutexOk with
  | false => exact failCloseLog_withRange minId maxId freq _ g'
  | true =>
    rw [if_neg (by simp), if_neg (by simp), scanThreads_withRange]
    cases scanThreads pid namelist g' with
    | error f => rfl
    | ok h =>
      dsimp only [Except.map]
      rw [findTinfo_withRange]
      cases findTinfo h.info pid with
      | none => rfl
      | some i =>
        dsimp only
        rw [slot_withRange]
        split
        · exact failCloseLog_withRange minId maxId freq _ h
        · rfl

/-! ## Probes and exit -/

theorem exitSlot_withRange (g : Proc) (i : Fin profThreadMax) :
    exitSlot (g.withRange minId maxId freq) i = (exitSlot g i).withRange minId maxId freq := by
  unfold exitSlot
  rw [slot_withRange]
  split
  · rfl
  · split <;> rfl

theorem foldl_exitSlot_withRange : ∀ (is : List (Fin profThreadMax)) (g : Proc),
    is.foldl exitSlot (g.withRange minId maxId freq) =
      (is.foldl exitSlot g).withRange minId maxId freq
  | [], _ => rfl
  | i :: is, g => by
    rw [List.foldl_cons, List.foldl_cons, exitSlot_withRange, foldl_exitSlot_withRange is]

theorem lprobeExit_withRange (g : Proc) :
    lprobeExit (g.withRange minId maxId freq) = (lprobeExit g).withRange minId maxId freq := by
  unfold lprobeExit
  rw [show (g.withRange minId maxId freq).info.isError = g.info.isError from rfl, flog_withRange]
  split
  · rfl
  · cases g.info.flog with
    | none => rw [← foldl_exitSlot_withRange]
    | some f =>
      dsimp only
      rw [← foldl_exitSlot_withRange]
      rfl

theorem round_withRange (s : PipeSt) (tid : Int) (b : CallSt) :
    (s.withRange minId maxId freq).round tid b =
      (s.round tid b).map (PipeSt.withRange minId maxId freq) := by
  unfold PipeSt.round
  rw [show (s.withRange minId maxId freq).proc.slot b.slot = s.proc.slot b.slot from rfl,
    show (s.withRange minId maxId freq).proc.os = s.proc.os from rfl]
  cases (s.proc.slot b.slot).evlist with
  | none => rfl
  | some l =>
    dsimp only
    cases l.entries[b.next]? with
    | none => rfl
    | some e =>
      dsimp only
      cases readEvent b.call b.next e (b.samples b.next) (s.proc.slot b.slot) s.proc.os <;> rfl

theorem step_withRange (s : PipeSt) (a : PipeStep) :
    pipeMachine.step (s.withRange minId maxId freq) a =
      (pipeMachine.step s a).map (PipeSt.withRange minId maxId freq) := by
  cases a with
  | register tid =>
    simp only [pipeMachine]
    rw [show (s.withRange minId maxId freq).proc = s.proc.withRange minId maxId freq from rfl,
      lprobeThreadInit_withRange]
    cases lprobeThreadInit tid s.proc <;> rfl
  | enter tid call samples => rfl
  | event tid =>
    simp only [pipeMachine]
    rw [show (s.withRange minId maxId freq).busy = s.busy from rfl]
    cases s.busy tid with
    | none => rfl
    | some b => exact round_withRange minId maxId freq s tid b
  | exit =>
    simp only [pipeMachine]
    rw [show (s.withRange minId maxId freq).proc = s.proc.withRange minId maxId freq from rfl,
      lprobeExit_withRange]
    rfl

theorem run_withRange (s : PipeSt) (as : List PipeStep) :
    pipeMachine.run (s.withRange minId maxId freq) as =
      (pipeMachine.run s as).map (PipeSt.withRange minId maxId freq) :=
  Machine.run_map (step_withRange minId maxId freq) s as

end

/-- **Neither the range nor the frequency is used**: whatever `lprobe_init` is given for them, its
result, every fault and everything the process does to the system are the same. -/
theorem sampling_without_effect (evlistStr : CStr) (minId maxId freq minId' maxId' freq' : Nat)
    (pid : Int) (mutexOk : Bool) (namelist : Option (List CStr)) (os : Os) (as : List PipeStep) :
    profiledRun evlistStr minId maxId freq pid mutexOk namelist os as =
      profiledRun evlistStr minId' maxId' freq' pid mutexOk namelist os as := by
  unfold profiledRun
  rw [lprobeInit_withRange minId maxId freq evlistStr minId' maxId' freq']
  cases lprobeInit evlistStr minId' maxId' freq' pid mutexOk namelist .initial (.initial os) with
  | error f => rfl
  | ok r =>
    obtain ⟨r, tls, g⟩ := r
    have hrun := run_withRange minId maxId freq (.start pid tls g) as
    dsimp only [Except.map]
    rw [show PipeSt.start pid tls (g.withRange minId maxId freq) =
      (PipeSt.start pid tls g).withRange minId maxId freq from rfl, hrun]
    cases pipeMachine.run (.start pid tls g) as <;> rfl

end Lprofile.Probe
