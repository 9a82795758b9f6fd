import Lprofile.Probe.Creation
import Lprofile.Probe.Pipeline

/-!
# Who runs `lprobe_init`

The tracer injects the call of `lprobe_init` into an attached process, and it is
one of the threads of this process that executes it. `threadinfo` is a
thread-local: the probes look it up under the thread's own tid, `lprobe_init`
under the process id. `callMachine` lets any threads make probe calls, one event
at a time and in any order, after the thread `exec` has run `lprobe_init`.

A run never faults, and a thread's cached slot is its own in all runs if and only
if `exec` is the main thread (`owned_iff`).
-/

namespace Lprofile.Probe

open Lprofile.Lib

/-- Probe calls of any threads, before `lprobe_exit`; a thread is known by its tid. -/
def callMachine : Machine PipeSt PipeStep Fault where
  Enabled s
    | .enter tid _ _ => s.busy tid = none
    | .event tid => ∃ b, s.busy tid = some b
    | _ => False
  step := pipeMachine.step

/-- The slot in a thread's `threadinfo` has the tid of the thread. -/
def SlotOwned (s : PipeSt) : Prop :=
  ∀ tid i, (s.tls tid).threadinfo = some i → (s.proc.slot i).tid = tid

/-- In the run of `as` from `s₀`, thread `tid` stores a record in the buffer of slot `i`. -/
def StoresIn (s₀ : PipeSt) (as : List PipeStep) (tid : Int) (i : Fin profThreadMax) : Prop :=
  ∃ pre post s b l, as = pre ++ .event tid :: post ∧ callMachine.run s₀ pre = .ok s ∧
    s.busy tid = some b ∧ b.slot = i ∧ (s.proc.slot i).evlist = some l ∧ b.next < l.entries.length

/-- No two threads store into one buffer. -/
def Unshared (s₀ : PipeSt) (as : List PipeStep) : Prop :=
  ∀ tid tid' i, StoresIn s₀ as tid i → StoresIn s₀ as tid' i → tid = tid'

/-! ## Steps -/

/-- Whatever slot a call found is running. -/
structure CallsOk (s : PipeSt) : Prop where
  table : TableOk s.proc
  busy : ∀ tid b, s.busy tid = some b → (s.proc.slot b.slot).state = .running

/-- A probe call goes to the slot in its thread's `threadinfo`; a lookup gives a slot with the
thread's tid. -/
theorem enterProbe_found (tid : Int) (tls : Tls) (info : ProfInfo) :
    let r := enterProbe tid tls info
    (∀ i, r.2 = some i → r.1.threadinfo = some i) ∧
      ∀ i, r.1.threadinfo = some i → tls.threadinfo = some i ∨ (info.threads i).tid = tid := by
  rcases enterProbe_cases tid tls info with ⟨-, he⟩ | ⟨-, -, -, he⟩ | ⟨j, t, -, -, ht, hfrom, he⟩
  · rw [he]
    exact ⟨fun i hi => (by cases hi), fun i hi => .inl hi⟩
  · rw [he]
    exact ⟨fun i hi => (by cases hi), fun i hi => .inl hi⟩
  · rw [he]
    dsimp only
    refine ⟨fun i hi => ?_, fun i hi => ?_⟩
    · by_cases hrun : (info.threads j).state = .running
      · rw [if_pos hrun] at hi
        rw [ht, hi]
      · rw [if_neg hrun] at hi
        cases hi
    · rw [ht] at hi
      cases hi
      exact hfrom.imp id fun hf => (findTinfo_eq_some.1 hf.2).1

/-- What a step of `callMachine` can do. -/
theorem callMachine_step {s : PipeSt} (h : CallsOk s) {a : PipeStep} (hen : callMachine.Enabled s a) :
    (∃ tid call samples, a = .enter tid call samples ∧
      callMachine.step s a = .ok { s with
        tls := Function.update s.tls tid (enterProbe tid (s.tls tid) s.proc.info).1
        busy := Function.update s.busy tid
          ((enterProbe tid (s.tls tid) s.proc.info).2.map fun i => ⟨call, samples, i, 0⟩) }) ∨
    ∃ tid b, a = .event tid ∧ s.busy tid = some b ∧ ∃ g rs busy,
      callMachine.step s a = .ok { s with proc := g, busy := busy } ∧
      (g = s.proc ∨ Extends s.proc b.slot rs g) ∧
      ∀ t b', busy t = some b' → ∃ b₀, s.busy t = some b₀ ∧ b'.slot = b₀.slot := by
  cases a with
  | register tid => exact hen.elim
  | exit => exact hen.elim
  | enter tid call samples => exact .inl ⟨tid, call, samples, rfl, rfl⟩
  | event tid =>
    right
    obtain ⟨b, hb⟩ := hen
    refine ⟨tid, b, rfl, hb, ?_⟩
    obtain ⟨l, f, hrun⟩ := h.table.running b.slot (h.busy tid b hb)
    simp only [callMachine, pipeMachine, hb, PipeSt.round, hrun.evlist]
    rcases hnext : l.entries[b.next]? with _ | e
    · refine ⟨s.proc, [], _, rfl, .inl rfl, fun t b' hb' => ?_⟩
      by_cases ht : t = tid
      · rw [ht, Function.update_self] at hb'
        cases hb'
      · rw [Function.update_of_ne ht] at hb'
        exact ⟨b', hb', rfl⟩
    · obtain ⟨t', f', os', hread, hrun', hrec⟩ :=
        readEvent_spec hrun (List.mem_of_getElem? hnext) b.call b.samples b.next s.proc.os
      simp only [hread]
      refine ⟨_, _, _, rfl, .inr (extends_setSlot hrun hrun' hrec), fun t b' hb' => ?_⟩
      by_cases ht : t = tid
      · rw [ht, Function.update_self] at hb'
        cases hb'
        exact ⟨b, ht ▸ hb, rfl⟩
      · rw [Function.update_of_ne ht] at hb'
        exact ⟨b', hb', rfl⟩

theorem Extends.state {g g' : Proc} {i : Fin profThreadMax} {rs : List ProfRecord}
    (h : Extends g i rs g') (j : Fin profThreadMax) : (g'.slot j).state = (g.slot j).state := by
  by_cases hj : j = i
  · subst hj
    obtain ⟨_, _, _, hrun, hrun', -⟩ := h.slot
    exact hrun'.state.trans hrun.state.symm
  · rw [h.slot_ne j hj]

/-- The new `busy` of a call that was just entered. -/
theorem busy_enter {s : PipeSt} {tid t : Int} {call : ProbeCall} {samples : Nat → PmcSample}
    {slot : Option (Fin profThreadMax)} {b : CallSt}
    (h : Function.update s.busy tid (slot.map fun i => ⟨call, samples, i, 0⟩) t = some b) :
    (t = tid ∧ slot = some b.slot) ∨ s.busy t = some b := by
  by_cases ht : t = tid
  · subst ht
    rw [Function.update_self] at h
    obtain ⟨i, hi, rfl⟩ := Option.map_eq_some_iff.1 h
    exact .inl ⟨rfl, hi⟩
  · rw [Function.update_of_ne ht] at h
    exact .inr h

/-- No step faults, and the tids in the table stay. -/
theorem CallsOk.step {s : PipeSt} (h : CallsOk s) {a : PipeStep} (hen : callMachine.Enabled s a) :
    ∃ s', callMachine.step s a = .ok s' ∧ CallsOk s' ∧
      ∀ i, (s'.proc.slot i).tid = (s.proc.slot i).tid := by
  rcases callMachine_step h hen with
    ⟨tid, call, samples, -, hs⟩ | ⟨tid, b, -, -, g, rs, busy, hs, hg, hbusy⟩
  · refine ⟨_, hs, ⟨h.table, fun t b hb => ?_⟩, fun i => rfl⟩
    rcases busy_enter hb with ⟨-, hslot⟩ | hb
    · exact enterProbe_running (Prod.ext rfl hslot)
    · exact h.busy t b hb
  · have hkeep : TableOk g ∧ ∀ i, (g.slot i).tid = (s.proc.slot i).tid ∧
        (g.slot i).state = (s.proc.slot i).state := by
      rcases hg with rfl | he
      · exact ⟨h.table, fun i => ⟨rfl, rfl⟩⟩
      · exact ⟨he.tableOk h.table, fun i => ⟨he.tid i, he.state i⟩⟩
    refine ⟨_, hs, ⟨hkeep.1, fun t b' hb' => ?_⟩, fun i => (hkeep.2 i).1⟩
    obtain ⟨b₀, hb₀, hslot⟩ := hbusy t b' hb'
    rw [hslot, (hkeep.2 b₀.slot).2]
    exact h.busy t b₀ hb₀

/-- The slots that a thread has cached or records in are its own. -/
structure OwnCalls (s : PipeSt) : Prop where
  cached : SlotOwned s
  busy : ∀ tid b, s.busy tid = some b → (s.proc.slot b.slot).tid = tid

theorem OwnCalls.step {s s' : PipeSt} (h : OwnCalls s) (hc : CallsOk s) {a : PipeStep}
    (hen : callMachine.Enabled s a) (hs' : callMachine.step s a = .ok s') : OwnCalls s' := by
  rcases callMachine_step hc hen with
    ⟨tid, call, samples, -, hs⟩ | ⟨tid, b, -, -, g, rs, busy, hs, hg, hbusy⟩
  · rw [hs] at hs'
    cases hs'
    obtain ⟨hslot, hfound⟩ := enterProbe_found tid (s.tls tid) s.proc.info
    have hown : ∀ i, (enterProbe tid (s.tls tid) s.proc.info).1.threadinfo = some i →
        (s.proc.slot i).tid = tid :=
      fun i hi => (hfound i hi).elim (h.cached tid i) id
    refine ⟨fun t i hi => ?_, fun t b hb => ?_⟩
    · by_cases ht : t = tid
      · subst ht
        simp only [Function.update_self] at hi
        exact hown i hi
      · simp only [Function.update_of_ne ht] at hi
        exact h.cached t i hi
    · rcases busy_enter hb with ⟨rfl, hb⟩ | hb
      · exact hown b.slot (hslot b.slot hb)
      · exact h.busy t b hb
  · obtain ⟨s₁, hs₁, -, htid⟩ := hc.step hen
    rw [hs'] at hs₁
    cases hs₁
    rw [hs] at hs'
    cases hs'
    refine ⟨fun t i hi => (htid i).trans (h.cached t i hi), fun t b' hb' => ?_⟩
    obtain ⟨b₀, hb₀, hslot⟩ := hbusy t b' hb'
    rw [hslot]
    exact (htid b₀.slot).trans (h.busy t b₀ hb₀)

/-! ## Runs -/

theorem calls_run {s : PipeSt} {as : List PipeStep} (h : CallsOk s) (hl : callMachine.Legal s as) :
    ∃ s', callMachine.run s as = .ok s' ∧ CallsOk s' := by
  refine hl.run_ok (P := fun _ s => CallsOk s) (fun _ s a hP hen => ?_) h
  obtain ⟨s', hs, hok, -⟩ := hP.step hen
  exact ⟨s', hs, hok⟩

/-- Own slots stay own slots, in every state of a run. -/
theorem ownCalls_run {s₀ s : PipeSt} {as pre : List PipeStep} (hc : CallsOk s₀) (ho : OwnCalls s₀)
    (hl : callMachine.Legal s₀ as) (hpre : pre <+: as) (hrun : callMachine.run s₀ pre = .ok s) :
    OwnCalls s ∧ ∀ i, (s.proc.slot i).tid = (s₀.proc.slot i).tid := by
  obtain ⟨post, rfl⟩ := hpre
  obtain ⟨s', hs', -, ho', htid⟩ := hl.append.1.run_ok
    (P := fun _ s => CallsOk s ∧ OwnCalls s ∧ ∀ i, (s.proc.slot i).tid = (s₀.proc.slot i).tid)
    (fun _ t a hP hen => by
      obtain ⟨t', ht, hok, hsame⟩ := hP.1.step hen
      exact ⟨t', ht, hok, hP.2.1.step hP.1 hen ht, fun i => (hsame i).trans (hP.2.2 i)⟩)
    ⟨hc, ho, fun _ => rfl⟩
  rw [hs'] at hrun
  cases hrun
  exact ⟨ho', htid⟩

theorem OwnCalls.unshared {s₀ : PipeSt} {as : List PipeStep} (hc : CallsOk s₀) (ho : OwnCalls s₀)
    (hl : callMachine.Legal s₀ as) : Unshared s₀ as := by
  have howner : ∀ tid i, StoresIn s₀ as tid i → (s₀.proc.slot i).tid = tid := by
    rintro tid i ⟨pre, post, s, b, l, has, hrun, hb, rfl, -, -⟩
    obtain ⟨hown, htid⟩ := ownCalls_run hc ho hl ⟨_, has.symm⟩ hrun
    exact (htid b.slot).symm.trans (hown.busy tid b hb)
  intro tid tid' i h h'
  exact (howner tid i h).symm.trans (howner tid' i h')

/-- **Slot ownership depends on who runs `lprobe_init`.** Whatever threads the scan finds and
however the probe calls of any threads interleave afterwards, no run faults; the slot cached in
a thread's `threadinfo` is its own throughout, and no two threads store into one buffer, exactly
when the thread that ran `lprobe_init` is the main thread of the process. -/
theorem owned_iff (evlistStr : CStr) (minId maxId freq : Nat) (pid exec : Int) (mutexOk : Bool)
    (namelist : Option (List CStr)) (os : Os) (tls : Tls) (g : Proc) (hpid : ValidTid pid)
    (hinit : lprobeInit evlistStr minId maxId freq pid mutexOk namelist .initial
      (Proc.initial os) = .ok (0, tls, g))
    (as : List PipeStep) (hl : callMachine.Legal (.start exec tls g) as) :
    (∃ s, callMachine.run (.start exec tls g) as = .ok s) ∧
      (callMachine.Always (.start exec tls g) as SlotOwned ∧ Unshared (.start exec tls g) as ↔
        exec = pid) := by
  have hi := lprobeInit_ok hpid hinit
  have hc : CallsOk (.start exec tls g) := ⟨hi.table, fun _ _ hb => (by cases hb)⟩
  obtain ⟨s, hs, -⟩ := calls_run hc hl
  refine ⟨⟨s, hs⟩, fun h => ?_, ?_⟩
  · -- the cached slot is found under the process id
    obtain ⟨i, htls⟩ := Option.ne_none_iff_exists'.1 hi.found
    have hown := h.1 [] _ List.nil_prefix rfl exec i (by simp [PipeSt.start, htls])
    have hslot := (findTinfo_eq_some.1 (hi.lookup.trans htls)).1
    exact hown.symm.trans hslot
  · rintro rfl
    have ho : OwnCalls (.start exec tls g) := by
      refine ⟨fun tid i htls => ?_, fun _ _ hb => (by cases hb)⟩
      simp only [PipeSt.start] at htls
      split at htls
      · rename_i htid
        rw [htid]
        exact (findTinfo_eq_some.1 (hi.lookup.trans htls)).1
      · cases htls
    exact ⟨fun pre t hpre hrun => (ownCalls_run hc ho hl hpre hrun).1.cached, ho.unshared hc hl⟩

/-! ## Two threads -/

/-- Thread `tid` makes a probe call and stores its first record. -/
def firstRecord (tid : Int) : List PipeStep :=
  [.enter tid ⟨7, false, 1000⟩ fun _ => closedPage, .event tid]

/-- Process 100 has the threads 100 and 101. -/
def duoInit : Except Fault (Int × Tls × Proc) :=
  lprobeInit "cpu-cycles".toList 0 0 0 100 true (some ["100".toList, "101".toList]) .initial
    (Proc.initial (Os.boot .granting))

def duoProc : Proc :=
  match duoInit with
  | .ok r => r.2.2
  | .error _ => Proc.initial (Os.boot .granting)

theorem duoInit_eq : duoInit = .ok (0, ⟨some 0, false, 100⟩, duoProc) := rfl

/-- Both threads call a probe, and each stores its record while the other's call goes on. -/
def turns : List PipeStep :=
  [.enter 101 ⟨7, false, 1000⟩ fun _ => closedPage, .enter 100 ⟨8, false, 1001⟩ fun _ => closedPage,
    .event 100, .event 101]

theorem legal_turns :
    callMachine.Legal (.start 100 ⟨some 0, false, 100⟩ duoProc) turns := by
  refine ⟨rfl, fun s hs => ?_⟩
  cases hs
  refine ⟨rfl, fun s hs => ?_⟩
  cases hs
  refine ⟨⟨_, rfl⟩, fun s hs => ?_⟩
  cases hs
  exact ⟨⟨_, rfl⟩, fun _ _ => trivial⟩

theorem owned_iff_main :
    (∃ s, callMachine.run (.start 100 ⟨some 0, false, 100⟩ duoProc) turns = .ok s) ∧
      callMachine.Always (.start 100 ⟨some 0, false, 100⟩ duoProc) turns SlotOwned ∧
      Unshared (.start 100 ⟨some 0, false, 100⟩ duoProc) turns := by
  obtain ⟨hrun, hiff⟩ := owned_iff _ _ _ _ 100 100 _ _ _ _ _ ⟨by decide, by decide⟩ duoInit_eq _
    legal_turns
  exact ⟨hrun, hiff.2 rfl⟩

/-- Thread 101 runs `lprobe_init`: it has the slot of thread 100, and both store into it. -/
theorem second_thread_inits :
    duoInit = .ok (0, ⟨some 0, false, 100⟩, duoProc) ∧
    let s := PipeSt.start 101 ⟨some 0, false, 100⟩ duoProc
    let as := firstRecord 101 ++ firstRecord 100
    callMachine.Legal s as ∧ ¬ callMachine.Always s as SlotOwned ∧ ¬ Unshared s as := by
  refine ⟨duoInit_eq, ?_, fun h => ?_, fun h => ?_⟩
  · refine ⟨rfl, fun s hs => ?_⟩
    cases hs
    refine ⟨⟨_, rfl⟩, fun s hs => ?_⟩
    cases hs
    refine ⟨rfl, fun s hs => ?_⟩
    cases hs
    exact ⟨⟨_, rfl⟩, fun _ _ => trivial⟩
  · have hown := h [] _ List.nil_prefix rfl 101 0 rfl
    exact absurd hown (by decide)
  · have h101 : StoresIn (.start 101 ⟨some 0, false, 100⟩ duoProc)
        (firstRecord 101 ++ firstRecord 100) 101 0 :=
      ⟨[_], _, _, _, _, rfl, rfl, rfl, rfl, rfl, by decide⟩
    have h100 : StoresIn (.start 101 ⟨some 0, false, 100⟩ duoProc)
        (firstRecord 101 ++ firstRecord 100) 100 0 :=
      ⟨[_, _, _], [], _, _, _, rfl, rfl, rfl, rfl, rfl, by decide⟩
    exact absurd (h 101 100 0 h101 h100) (by decide)

end Lprofile.Probe
