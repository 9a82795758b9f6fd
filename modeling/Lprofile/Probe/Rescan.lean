import Lprofile.Probe.Slots

/-!
# Scanning into a table in use

`__scan_threads` cuts the task listing down to the size of the table, not to the
slots that are free. While slots are free it takes them in order and leaves the
others alone; once the table is full `thread_nid` is `UINT_MAX`, and the next
entry is written through it. So a scan stays inside the table exactly when the
table does not fill up before the last entry (`rescan_ok_iff`).
-/

namespace Lprofile.Probe

open Lprofile.Lib

/-! ## Tables -/

/-- The calls that register threads. -/
inductive TableOp where
  | threadInit (tid : Int)
  | init (evlistStr : CStr) (minId maxId freq : Nat) (pid : Int) (mutexOk : Bool)
      (namelist : Option (List CStr)) (tls : Tls)

/-- Any sequence of registrations and initialisations in one process. -/
def tableMachine : Machine Proc TableOp Fault where
  Enabled _ _ := True
  step g
    | .threadInit tid => lprobeThreadInit tid g
    | .init evlistStr minId maxId freq pid mutexOk namelist tls =>
      match lprobeInit evlistStr minId maxId freq pid mutexOk namelist tls g with
      | .ok r => .ok r.2.2
      | .error f => .error f

/-- A further scan stays inside the table, leaves the initialised slots as they are, and registers
no more threads than there are free slots. -/
def RescanOk (pid : Int) (namelist : Option (List CStr)) (g : Proc) : Prop :=
  ∃ g', scanThreads pid namelist g = .ok g' ∧ (∀ i ∈ g.inits, g'.slot i = g.slot i) ∧
    g'.inits.length - g.inits.length ≤ profThreadMax - g.inits.length

theorem SlotInv.rescanOk_iff {g : Proc} (h : SlotInv g) (pid : Int)
    (namelist : Option (List CStr)) :
    RescanOk pid namelist g ↔ ScanFits namelist g.inits.length := by
  rw [h.inits_length, ← h.scanThreads_ok_iff pid]
  constructor
  · rintro ⟨g', hg, -⟩
    exact ⟨g', hg⟩
  · rintro ⟨g', hg⟩
    obtain ⟨hi', hk⟩ := h.scanThreads_keeps hg
    have hle := hi'.nb_le
    refine ⟨g', hg, fun i hi => (hk i hi).2, ?_⟩
    rw [hi'.inits_length]
    omega

/-! ## Reachable tables -/

theorem SlotInv.tableMachine_step {g g' : Proc} (h : SlotInv g) {op : TableOp}
    (hg : tableMachine.step g op = .ok g') : SlotInv g' := by
  cases op with
  | threadInit tid =>
    obtain ⟨g1, h1, hi⟩ := h.lprobeThreadInit tid
    rw [show tableMachine.step g (.threadInit tid) = .ok g1 from h1] at hg
    cases hg
    exact hi
  | init evlistStr minId maxId freq pid mutexOk namelist tls =>
    simp only [tableMachine] at hg
    split at hg
    · rename_i r hr
      cases hg
      exact h.lprobeInit hr
    · cases hg

theorem slotInv_reachable {os : Os} {ops : List TableOp} {g : Proc}
    (hrun : tableMachine.run (Proc.initial os) ops = .ok g) : SlotInv g := by
  have h0 := slotInv_procInitial os
  have halways : tableMachine.Always (Proc.initial os) ops SlotInv :=
    Machine.always_of_step h0 fun _ _ _ _ _ _ _ hP hs => hP.tableMachine_step hs
  exact halways ops g (List.prefix_refl ops) hrun

/-- **A scan into a table in use stays inside it exactly when the table does not fill up before the
last entry.** -/
theorem rescan_ok_iff (os : Os) (ops : List TableOp) (g : Proc)
    (hrun : tableMachine.run (Proc.initial os) ops = .ok g) (pid : Int)
    (namelist : Option (List CStr)) :
    RescanOk pid namelist g ↔ ScanFits namelist g.inits.length :=
  (slotInv_reachable hrun).rescanOk_iff pid namelist

/-- The table after a library constructor has registered thread 100. -/
def constructedProc : Proc :=
  match lprobeThreadInit 100 (Proc.initial (Os.boot .granting)) with
  | .ok g => g
  | .error _ => Proc.initial (Os.boot .granting)

theorem run_constructedProc :
    tableMachine.run (Proc.initial (Os.boot .granting)) [.threadInit 100] = .ok constructedProc :=
  rfl

/-- The names of `n` tasks, from 100 on. -/
def taskNames (n : Nat) : List CStr := (List.range n).map fun i => decimal (100 + i)

theorem rescan_ok_iff_constructed :
    RescanOk 100 (some (taskNames 2)) constructedProc ∧
      ScanFits (some (taskNames 2)) constructedProc.inits.length := by
  have hfits : ScanFits (some (taskNames 2)) constructedProc.inits.length := by
    unfold ScanFits
    decide +kernel
  exact ⟨(rescan_ok_iff _ _ _ run_constructedProc 100 (some (taskNames 2))).2 hfits, hfits⟩

/-- One slot is taken and 64 tasks are listed: the last one is written through `UINT_MAX`. -/
theorem full_table_overrun :
    tableMachine.run (Proc.initial (Os.boot .granting)) [.threadInit 100] = .ok constructedProc ∧
      constructedProc.inits.length = 1 ∧
      (∀ g', scanThreads 100 (some (taskNames 64)) constructedProc ≠ .ok g') ∧
      ¬ RescanOk 100 (some (taskNames 64)) constructedProc := by
  have hfits : ¬ ScanFits (some (taskNames 64)) constructedProc.inits.length := by
    unfold ScanFits
    decide +kernel
  have hbad : ¬ RescanOk 100 (some (taskNames 64)) constructedProc := by
    rw [(slotInv_reachable run_constructedProc).rescanOk_iff]
    exact hfits
  have hno : ∀ g', scanThreads 100 (some (taskNames 64)) constructedProc ≠ .ok g' := by
    intro g' hg
    refine hfits ?_
    rw [(slotInv_reachable run_constructedProc).inits_length]
    exact ((slotInv_reachable run_constructedProc).scanThreads_ok_iff 100 _).1 ⟨g', hg⟩
  exact ⟨run_constructedProc, rfl, hno, hbad⟩

end Lprofile.Probe
