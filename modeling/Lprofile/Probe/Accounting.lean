import Mathlib.Algebra.BigOperators.Fin
import Lprofile.Probe.EvlistRun
import Lprofile.Probe.Exit
import Lprofile.Probe.Threads

/-!
# Accounts of the table

A slot owns the descriptors and pages of its events and the file it has open.
`Booked k g` says that what the system holds is exactly what the slots own
together. `SlotBooked` is the same for one slot with everything else as the
frame; an operation on one slot that keeps it, whatever the frame is, keeps
`Booked` (`Booked.replace`). `__init_thread`, `__read_count` and
`__destroy_tinfo` are such operations, and `__destroy_tinfo` leaves a slot that
owns nothing.

`StateOk` ties the state of a slot to what it owns: RUNNING exactly when there
are both a list and a file.
-/

namespace Lprofile.Probe

open Lprofile.Lib

def ProfTinfo.events (t : ProfTinfo) : List ProfEvsel :=
  match t.evlist with
  | none => []
  | some evlist => evlist.entries

/-- The path of the output file, while it is open. -/
def ProfTinfo.handles (t : ProfTinfo) : Multiset CStr :=
  match t.outputFile with
  | none => 0
  | some f => {f.path}

theorem ProfTinfo.events_congr {t t' : ProfTinfo} (h : t'.evlist = t.evlist) :
    t'.events = t.events := by
  unfold ProfTinfo.events
  rw [h]

theorem ProfTinfo.events_none {t : ProfTinfo} (h : t.evlist = none) : t.events = [] := by
  unfold ProfTinfo.events
  rw [h]

theorem ProfTinfo.events_some {t : ProfTinfo} {l : ProfEvlist} (h : t.evlist = some l) :
    t.events = l.entries := by
  unfold ProfTinfo.events
  rw [h]

theorem ProfTinfo.handles_none {t : ProfTinfo} (h : t.outputFile = none) : t.handles = 0 := by
  unfold ProfTinfo.handles
  rw [h]

theorem ProfTinfo.handles_some {t : ProfTinfo} {f : OutFile} (h : t.outputFile = some f) :
    t.handles = {f.path} := by
  unfold ProfTinfo.handles
  rw [h]

/-- The slot owns exactly what the system holds, with the frame `F`, `P`, `H`. -/
structure SlotBooked (k : LawfulKernel) (F : Multiset Int) (P : Multiset Page)
    (H : Multiset CStr) (t : ProfTinfo) (os : Os) : Prop where
  list : ListOk k F P t.events os
  files : openFiles os.trace = H + t.handles

/-- The slots own exactly what the system holds. -/
structure Booked (k : LawfulKernel) (g : Proc) : Prop where
  owned : ∀ i, ∀ e ∈ (g.slot i).events, Owned e
  accounts : Accounts k (∑ i, fdsOfAll (g.slot i).events) (∑ i, pagesOfAll (g.slot i).events) g.os
  files : openFiles g.os.trace = ∑ i, (g.slot i).handles

/-- RUNNING exactly when there are a list and a file; a running slot has a real tid. -/
structure StateOk (t : ProfTinfo) : Prop where
  running_iff : t.state = .running ↔ t.evlist.isSome ∧ t.outputFile.isSome
  tid : t.state = .running → 0 ≤ t.tid

/-! ## One slot of many -/

section

variable {k : LawfulKernel} {g g' : Proc} {i : Fin profThreadMax}

theorem sum_slots {M : Type} [AddCommMonoid M] (f : ProfTinfo → M) (g : Proc)
    (i : Fin profThreadMax) :
    ∑ j, f (g.slot j) = ∑ j ∈ Finset.univ.erase i, f (g.slot j) + f (g.slot i) :=
  (Finset.sum_erase_add _ _ (Finset.mem_univ i)).symm

theorem sum_slots_of_ne {M : Type} [AddCommMonoid M] (f : ProfTinfo → M)
    (h : ∀ j, j ≠ i → g'.slot j = g.slot j) :
    ∑ j, f (g'.slot j) = ∑ j ∈ Finset.univ.erase i, f (g.slot j) + f (g'.slot i) := by
  rw [sum_slots f g' i]
  congr 1
  refine Finset.sum_congr rfl fun j hj => ?_
  rw [h j (Finset.ne_of_mem_erase hj)]

/-- An operation on slot `i` that keeps the books of the slot keeps those of the table. -/
theorem Booked.replace (h : Booked k g) (hne : ∀ j, j ≠ i → g'.slot j = g.slot j)
    (hslot : ∀ F P H, SlotBooked k F P H (g.slot i) g.os → SlotBooked k F P H (g'.slot i) g'.os) :
    Booked k g' := by
  have hacc := h.accounts
  have hfiles := h.files
  rw [sum_slots (fun t => fdsOfAll t.events) g i, sum_slots (fun t => pagesOfAll t.events) g i]
    at hacc
  rw [sum_slots ProfTinfo.handles g i] at hfiles
  obtain ⟨⟨howned, hacc'⟩, hfiles'⟩ := hslot _ _ _ ⟨⟨h.owned i, hacc⟩, hfiles⟩
  refine ⟨fun j => ?_, ?_, ?_⟩
  · by_cases hj : j = i
    · subst hj
      exact howned
    · rw [hne j hj]
      exact h.owned j
  · rw [sum_slots_of_ne (fun t => fdsOfAll t.events) hne,
      sum_slots_of_ne (fun t => pagesOfAll t.events) hne]
    exact hacc'
  · rw [sum_slots_of_ne ProfTinfo.handles hne]
    exact hfiles'

end

/-! ## Files -/

section

variable {k : LawfulKernel} {F : Multiset Int} {P : Multiset Page} {H : Multiset CStr}
  {t t' : ProfTinfo} {os os' : Os}

/-- The accounts are about the calls made. -/
theorem Accounts.of_trace (h : Accounts k F P os) (hk : os'.kernel = os.kernel)
    (ht : os'.trace = os.trace) : Accounts k F P os' := by
  obtain ⟨h1, h2, h3, h4, h5, h6, h7⟩ := h
  rw [← ht] at h2 h3 h4 h5 h6 h7
  exact ⟨hk.trans h1, h2, h3, h4, h5, h6, h7⟩

theorem SlotBooked.of_trace (h : SlotBooked k F P H t os) (hk : os'.kernel = os.kernel)
    (ht : os'.trace = os.trace) (hev : t'.evlist = t.evlist) (hh : t'.handles = t.handles) :
    SlotBooked k F P H t' os' := by
  have hevents := ProfTinfo.events_congr hev
  refine ⟨⟨?_, ?_⟩, ?_⟩
  · rw [hevents]
    exact h.list.owned
  · rw [hevents]
    exact h.list.accounts.of_trace hk ht
  · rw [ht, hh]
    exact h.files

theorem openFiles_log (os : Os) {c : Syscall} {op : LedgerOp CStr} (h : fileOp c = some op) :
    openFiles (os.log c).trace = Ledger.post (openFiles os.trace) op := by
  have hops : fileOps (os.log c).trace = fileOps os.trace ++ [op] := by
    simp [fileOps, List.filterMap_append, h]
  rw [openFiles, hops, Ledger.held_snoc]
  rfl

theorem EventCalls.openFiles (h : EventCalls os os') :
    openFiles os'.trace = Probe.openFiles os.trace := by
  rw [Probe.openFiles, h.fileOps]
  rfl

/-! ## `__init_thread` -/

/-- `__create_evlist` on a slot without a list. -/
theorem listOk_createEvlist (h : ListOk k F P [] os) (ht : t.evlist = none) (info : ProfInfo) :
    ListOk k F P (createEvlist info t os).2.1.events (createEvlist info t os).2.2 := by
  have hnil := ProfTinfo.events_none ht
  have hnone : ∀ os', Accounts k F P os' → ListOk k F P t.events os' := by
    intro os' hacc
    rw [hnil]
    exact ⟨fun _ he => (by cases he), by simpa using hacc⟩
  have hadd : ListOk k F P
      (profEvlistAddFromStr (profEvlistNew t.tid) info.evlistStr).2.entries os :=
    listOk_addFromStr h info.evlistStr
  simp only [createEvlist]
  generalize profEvlistAddFromStr (profEvlistNew t.tid) info.evlistStr = a at hadd ⊢
  split
  · exact hnone _ (accounts_delete hadd)
  · have hstart := listOk_start hadd
    generalize profEvlistStart a.2 os = q at hstart ⊢
    split
    · exact hnone _ (accounts_delete hstart)
    · exact hstart

theorem ListOk.fopen {es : List ProfEvsel} (h : ListOk k F P es os) (path : CStr) :
    ListOk k F P es (os.fopen path).2 := by
  refine ⟨h.owned, ?_⟩
  unfold Os.fopen
  split
  · exact (h.accounts.log (c := .fopen path true) rfl rfl).of_trace rfl rfl
  · exact h.accounts.log (c := .fopen path false) rfl rfl

theorem openFiles_fopen (os : Os) (path : CStr) :
    openFiles (os.fopen path).2.trace =
      openFiles os.trace + match (os.fopen path).1 with
        | none => 0
        | some f => {f.path} := by
  unfold Os.fopen
  split
  · have hlog := openFiles_log os (c := .fopen path true) rfl
    rw [Ledger.post_acquire] at hlog
    exact hlog
  · have hcalls := EventCalls.log os (c := .fopen path false) rfl
    rw [add_zero]
    exact hcalls.openFiles

/-- The slot `__init_thread` leaves: the list of `__create_evlist`, the file of `fopen`. -/
theorem initTinfo_fields (info : ProfInfo) (t : ProfTinfo) (os : Os) :
    let c := createEvlist info t os
    let f := c.2.2.fopen (outfile c.2.1.tid)
    (initTinfo info t os).1.evlist = c.2.1.evlist ∧ (initTinfo info t os).1.outputFile = f.1 ∧
      (initTinfo info t os).1.tid = c.2.1.tid ∧ (initTinfo info t os).2 = f.2 ∧
      (initTinfo info t os).1.state =
        if c.1 ≠ 0 ∨ f.1 = none then .error else c.2.1.state := by
  simp only [initTinfo]
  generalize createEvlist info t os = c
  obtain ⟨ret, t, os⟩ := c
  have htid : (if ret ≠ 0 then { t with state := .error } else t).tid = t.tid := by
    split <;> rfl
  simp only [htid]
  rcases os.fopen (outfile t.tid) with ⟨_ | f, os'⟩ <;> by_cases hret : ret = 0 <;> simp [hret]

theorem SlotBooked.initTinfo (h : SlotBooked k F P H t os) (hev : t.evlist = none)
    (hfile : t.outputFile = none) (info : ProfInfo) :
    SlotBooked k F P H (initTinfo info t os).1 (initTinfo info t os).2 := by
  have hlist : ListOk k F P [] os := by
    have hl := h.list
    rwa [ProfTinfo.events_none hev] at hl
  have hfiles : openFiles os.trace = H := by
    have hf := h.files
    rwa [ProfTinfo.handles_none hfile, add_zero] at hf
  have hc := listOk_createEvlist hlist hev info
  have hcalls := (createEvlist_spec info t os).1
  obtain ⟨e1, e2, -, e4, -⟩ := initTinfo_fields info t os
  refine ⟨?_, ?_⟩
  · rw [ProfTinfo.events_congr e1, e4]
    exact hc.fopen _
  · rw [e4, openFiles_fopen, hcalls.openFiles, hfiles]
    unfold ProfTinfo.handles
    rw [e2]

/-! ## `__destroy_tinfo` -/

/-- `__destroy_tinfo` writes, closes the file and deletes the list; the slot owns nothing then. -/
theorem destroyTinfo_calls (t : ProfTinfo) (os : Os) :
    ((destroyTinfo t os).1.evlist = none ∧ (destroyTinfo t os).1.outputFile = none) ∧
    ∃ os1 : Os, (destroyTinfo t os).2 = (match t.evlist with
        | none => os1
        | some evlist => profEvlistDelete evlist os1) ∧
      os1.kernel = os.kernel ∧
      os1.trace = os.trace ++ (t.outputFile.map fun f => Syscall.fclose f.path).toList := by
  obtain ⟨tid, state, evlist, outputFile, nbRecord, records⟩ := t
  cases outputFile with
  | none =>
    cases evlist with
    | none => exact ⟨⟨rfl, rfl⟩, os, rfl, rfl, (List.append_nil _).symm⟩
    | some evlist => exact ⟨⟨rfl, rfl⟩, os, rfl, rfl, (List.append_nil _).symm⟩
  | some f =>
    unfold destroyTinfo
    dsimp only
    by_cases hnb : 0 < nbRecord
    · simp only [hnb, ↓reduceIte]
      cases evlist with
      | none => exact ⟨⟨rfl, rfl⟩, _, rfl, rfl, rfl⟩
      | some evlist => exact ⟨⟨rfl, rfl⟩, _, rfl, rfl, rfl⟩
    · simp only [hnb, ↓reduceIte]
      cases evlist with
      | none => exact ⟨⟨rfl, rfl⟩, _, rfl, rfl, rfl⟩
      | some evlist => exact ⟨⟨rfl, rfl⟩, _, rfl, rfl, rfl⟩

/-- The books after the file of the slot is closed. -/
theorem SlotBooked.fclose (h : SlotBooked k F P H t os) (hk : os'.kernel = os.kernel)
    (ht : os'.trace = os.trace ++ (t.outputFile.map fun f => Syscall.fclose f.path).toList) :
    ListOk k F P t.events os' ∧ openFiles os'.trace = H := by
  have hfiles := h.files
  cases hf : t.outputFile with
  | none =>
    rw [ProfTinfo.handles_none hf] at hfiles
    rw [hf, Option.map_none, Option.toList_none, List.append_nil] at ht
    refine ⟨⟨h.list.owned, h.list.accounts.of_trace hk ht⟩, ?_⟩
    rw [ht, hfiles]
    exact add_zero H
  | some f =>
    rw [ProfTinfo.handles_some hf] at hfiles
    rw [hf, Option.map_some, Option.toList_some] at ht
    have hclose := openFiles_log os (c := .fclose f.path) rfl
    rw [hfiles, Ledger.post_release] at hclose
    have hacc := h.list.accounts.log (c := .fclose f.path) rfl rfl
    refine ⟨⟨h.list.owned, hacc.of_trace hk ht⟩, ?_⟩
    rw [ht]
    exact hclose

theorem SlotBooked.destroyTinfo (h : SlotBooked k F P H t os) :
    SlotBooked k F P H (destroyTinfo t os).1 (destroyTinfo t os).2 := by
  obtain ⟨⟨hev, hfile⟩, os1, hos, hk, ht⟩ := destroyTinfo_calls t os
  obtain ⟨hlist, hfiles⟩ := h.fclose hk ht
  have hnil : ∀ os', Accounts k F P os' → ListOk k F P [] os' :=
    fun os' hacc => ⟨fun _ he => (by cases he), by simpa using hacc⟩
  refine ⟨?_, ?_⟩
  · rw [ProfTinfo.events_none hev, hos]
    cases hl : t.evlist with
    | none =>
      rw [ProfTinfo.events_none hl] at hlist
      exact hlist
    | some evlist =>
      rw [ProfTinfo.events_some hl] at hlist
      exact hnil _ (accounts_delete hlist)
  · rw [ProfTinfo.handles_none hfile, add_zero, hos]
    cases hl : t.evlist with
    | none => exact hfiles
    | some evlist => rw [← hfiles, (eventCalls_profEvlistDelete evlist os1).openFiles]

/-! ## `__read_count` -/

theorem readEvent_calls {c : ProbeCall} {i : Nat} {e : ProfEvsel} {sample : PmcSample}
    (h : readEvent c i e sample t os = .ok (t', os')) :
    os'.kernel = os.kernel ∧ os'.trace = os.trace := by
  unfold readEvent at h
  split at h
  · cases h
  · split at h
    · dsimp only at h
      split at h
      · split at h
        · cases h
        · cases h
          exact ⟨rfl, rfl⟩
      · cases h
        exact ⟨rfl, rfl⟩
    · cases h

/-- `__read_count` makes no call but `fwrite`. -/
theorem readEvents_calls {c : ProbeCall} {samples : Nat → PmcSample} :
    ∀ {es : List ProfEvsel} {i : Nat} {t : ProfTinfo} {os : Os},
      readEvents c samples i es t os = .ok (t', os') →
      os'.kernel = os.kernel ∧ os'.trace = os.trace
  | [], _, _, _, h => by
    cases h
    exact ⟨rfl, rfl⟩
  | e :: es, i, t, os, h => by
    simp only [readEvents] at h
    split at h
    · rename_i r hr
      obtain ⟨h1, h2⟩ := readEvent_calls hr
      obtain ⟨h3, h4⟩ := readEvents_calls h
      exact ⟨h3.trans h1, h4.trans h2⟩
    · cases h

theorem lprobeFunc_calls {c : ProbeCall} {samples : Nat → PmcSample} {tid : Int} {tls tls' : Tls}
    {g g' : Proc} (h : lprobeFunc c samples tid tls g = .ok (tls', g')) :
    g'.os.kernel = g.os.kernel ∧ g'.os.trace = g.os.trace := by
  unfold lprobeFunc at h
  split at h
  · cases h
    exact ⟨rfl, rfl⟩
  · split at h
    · cases h
    · rename_i r hr
      cases h
      unfold readCount at hr
      split at hr
      · cases hr
      · exact readEvents_calls hr

end

/-! ## The table -/

/-- What every operation keeps while `is_error` is clear. -/
structure TableBooked (k : LawfulKernel) (g : Proc) : Prop extends TableOk g, Booked k g where
  state : ∀ i, StateOk (g.slot i)

section

variable {k : LawfulKernel} {g g' : Proc} {i id : Fin profThreadMax} {pid : Int}

theorem stateOk_initTinfo {t : ProfTinfo} (htid : 0 ≤ t.tid) (hev : t.evlist = none)
    (info : ProfInfo) (os : Os) : StateOk (initTinfo info t os).1 := by
  obtain ⟨e1, e2, e3, -, e5⟩ := initTinfo_fields info t os
  obtain ⟨-, hcase⟩ := createEvlist_spec info t os
  generalize createEvlist info t os = c at e1 e2 e3 e5 hcase
  obtain ⟨ret, t', os'⟩ := c
  simp only at e1 e2 e3 e5 hcase
  rcases hcase with ⟨rfl, rfl⟩ | ⟨rfl, l, -, rfl⟩
  · rw [if_pos (.inl (by decide))] at e5
    refine ⟨?_, fun h => ?_⟩
    · rw [e1, e5, hev]
      simp
    · rw [e5] at h
      cases h
  · refine ⟨?_, fun _ => by rw [e3]; exact htid⟩
    rw [e1, e2, e5]
    cases (os'.fopen (outfile t.tid)).1 <;> simp

/-- A registration takes a slot that owns nothing. -/
theorem TableBooked.registers (h : TableBooked k g) (r : Registers g pid id g') (hpid : 0 ≤ pid)
    (hid : id ∉ g.inits) : TableBooked k g' := by
  have hempty := h.slot_stale hid pid
  have hslot := r.slot_eq
  have hos := r.os
  rw [hempty] at hslot hos
  refine ⟨r.tableOk h.toTableOk hid, h.toBooked.replace r.slot_ne fun F P H hb => ?_, ?_⟩
  · rw [hslot, hos]
    have hb' : SlotBooked k F P H { g.slot id with tid := pid } g.os := hb.of_trace rfl rfl rfl rfl
    rw [hempty] at hb'
    exact hb'.initTinfo rfl rfl g.info
  · refine r.forall_slot ?_ h.state
    rw [hslot]
    exact stateOk_initTinfo hpid rfl g.info g.os

/-- A tid in a slot that is not initialised changes nothing. -/
theorem TableBooked.stale (h : TableBooked k g) (hid : id ∉ g.inits) {tid : Int} (htid : tid ≤ 0) :
    TableBooked k (g.setSlot id { g.slot id with tid := tid }) := by
  have hempty := h.slot_stale hid tid
  refine ⟨h.toTableOk.stale hid htid, h.toBooked.replace (i := id)
    (fun j hj => Proc.slot_setSlot_ne g _ hj) fun F P H hb => ?_, fun i => ?_⟩
  · rw [Proc.slot_setSlot_self]
    exact hb.of_trace rfl rfl rfl rfl
  · by_cases e : i = id
    · subst e
      rw [Proc.slot_setSlot_self, hempty]
      exact ⟨by simp [ProfTinfo.empty, ProfTinfo.initial], fun hrun => (by cases hrun)⟩
    · rw [Proc.slot_setSlot_ne _ _ e]
      exact h.state i

theorem scanRule_tableBooked (k : LawfulKernel) : ScanRule (TableBooked k) where
  register hs hnb r hpid h := h.registers r hpid.pos.le (hs.not_mem_inits hnb)
  stale hs hnb htid h := h.stale (hs.not_mem_inits hnb) htid

/-- A probe makes no call that the books know. -/
theorem TableBooked.extends (h : TableBooked k g) {rs : List ProfRecord} (e : Extends g i rs g')
    (hk : g'.os.kernel = g.os.kernel) (ht : g'.os.trace = g.os.trace) : TableBooked k g' := by
  obtain ⟨l, f, f', hrun, hrun', hrec⟩ := e.slot
  have hev : (g'.slot i).evlist = (g.slot i).evlist := by rw [hrun.evlist, hrun'.evlist]
  refine ⟨e.tableOk h.toTableOk, h.toBooked.replace e.slot_ne fun F P H hb => ?_, fun j => ?_⟩
  · refine hb.of_trace hk ht hev ?_
    rw [ProfTinfo.handles_some hrun.file, ProfTinfo.handles_some hrun'.file, hrec.path]
  · by_cases hj : j = i
    · subst hj
      refine ⟨?_, fun _ => ?_⟩
      · rw [hrun'.state, hrun'.evlist, hrun'.file]
        simp
      · rw [hrec.tid]
        exact (h.state j).tid hrun.state
    · rw [e.slot_ne j hj]
      exact h.state j

/-! ## `lprobe_exit` -/

/-- What `__destroy_tinfo` leaves of a slot. -/
structure Emptied (t : ProfTinfo) : Prop where
  evlist : t.evlist = none
  outputFile : t.outputFile = none
  state : t.state = .uninit

theorem emptied_destroyTinfo (t : ProfTinfo) (os : Os) : Emptied (destroyTinfo t os).1 :=
  ⟨(destroyTinfo_calls t os).1.1, (destroyTinfo_calls t os).1.2, rfl⟩

/-- One round of the loop destroys a running slot and leaves any other alone. -/
theorem exitSlot_eq (h : StateOk (g.slot i)) :
    exitSlot g i = if (g.slot i).state = .running then
      { g.setSlot i (destroyTinfo (g.slot i) g.os).1 with os := (destroyTinfo (g.slot i) g.os).2 }
      else g := by
  unfold exitSlot
  split
  · rename_i htid
    rw [if_neg]
    intro hrun
    have hpos := h.tid hrun
    omega
  · rfl

theorem exitSlot_slot_ne (g : Proc) {i j : Fin profThreadMax} (h : j ≠ i) :
    (exitSlot g i).slot j = g.slot j := by
  unfold exitSlot
  split
  · rfl
  · split
    · exact Proc.slot_setSlot_ne g _ h
    · rfl

theorem TableBooked.exitSlot (h : TableBooked k g) (i : Fin profThreadMax) :
    TableBooked k (exitSlot g i) := by
  rw [exitSlot_eq (h.state i)]
  split
  · rename_i hrun
    have hemp := emptied_destroyTinfo (g.slot i) g.os
    have hbook : ∀ F P H, SlotBooked k F P H (g.slot i) g.os →
        SlotBooked k F P H (destroyTinfo (g.slot i) g.os).1 (destroyTinfo (g.slot i) g.os).2 :=
      fun F P H hb => hb.destroyTinfo
    generalize destroyTinfo (g.slot i) g.os = r at hemp hbook ⊢
    have hself : ({ g.setSlot i r.1 with os := r.2 } : Proc).slot i = r.1 :=
      Proc.slot_setSlot_self g i r.1
    have hne : ∀ j, j ≠ i → ({ g.setSlot i r.1 with os := r.2 } : Proc).slot j = g.slot j :=
      fun j hj => Proc.slot_setSlot_ne g r.1 hj
    refine ⟨⟨fun j hj => ?_, fun j hj => ?_⟩, h.toBooked.replace hne fun F P H hb => ?_,
      fun j => ?_⟩
    · by_cases e : j = i
      · subst e
        rw [hself, hemp.state] at hj
        cases hj
      · rw [hne j e] at hj ⊢
        exact h.running j hj
    · have e : j ≠ i := by
        rintro rfl
        exact hj (h.mem_inits_of_running hrun)
      rw [hne j e]
      exact h.fresh j hj
    · rw [hself]
      exact hbook F P H hb
    · by_cases e : j = i
      · subst e
        rw [hself]
        exact ⟨by simp [hemp.state, hemp.evlist], fun hs => by rw [hemp.state] at hs; cases hs⟩
      · rw [hne j e]
        exact h.state j
  · exact h

end

end Lprofile.Probe
