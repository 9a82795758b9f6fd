import Lprofile.Probe.EvselRun
import Lprofile.Probe.Slots

/-!
# Records

What a probe call leaves in a slot. `callRecords` is the list of records of one
call, one for each event of the slot's list. The stream of a slot is what was
written through its file handle followed by the records waiting in its buffer;
a `RunningSlot` takes an event without a fault, and its stream grows by exactly
that record, whether or not the buffer is flushed on the way (`readEvent_spec`).

The last two sections say that the events of a started list have coupled fields,
and that the operations on events leave the files alone.
-/

namespace Lprofile.Probe

open Lprofile.Lib

/-! ## The records of a call -/

/-- What a selector with coupled fields reads as. -/
def evselCount (e : ProfEvsel) (s : PmcSample) : BitVec 64 := if e.isEnable then s.count else 0

theorem Coupled.rdpmc_eq {e : ProfEvsel} (h : Coupled e) (s : PmcSample) :
    profEvselRdpmc e s = .ok (evselCount e s) := by
  unfold profEvselRdpmc evselCount
  cases hn : e.isEnable with
  | false => rfl
  | true =>
    obtain ⟨p, hp⟩ := Option.ne_none_iff_exists'.1 (h.enabled hn).2.2
    simp only [hp, Bool.not_true, Bool.false_eq_true, ↓reduceIte]

/-- The record of the event `e` in position `i`. -/
def ProbeCall.recordOf (c : ProbeCall) (samples : Nat → PmcSample) (i : Nat) (e : ProfEvsel) :
    ProfRecord :=
  c.record i (evselCount e (samples i))

/-- One record for each event, in list order, all with the call's `ts`, function and `pos`. -/
def callRecords (c : ProbeCall) (samples : Nat → PmcSample) (es : List ProfEvsel) :
    List ProfRecord :=
  es.mapIdx (c.recordOf samples)

@[simp] theorem recordBytes_nil : recordBytes [] = [] := rfl

@[simp] theorem recordBytes_append (rs qs : List ProfRecord) :
    recordBytes (rs ++ qs) = recordBytes rs ++ recordBytes qs := List.flatMap_append

theorem length_bytes (r : ProfRecord) : r.bytes.length = profRecordSize := by
  simp [ProfRecord.bytes]

/-! ## A running slot -/

/-- What was written through the slot's file, and then what waits in the buffer. -/
def ProfTinfo.stream (t : ProfTinfo) : List Byte :=
  (match t.outputFile with
    | none => []
    | some f => f.data) ++ recordBytes t.buffer

structure RunningSlot (t : ProfTinfo) (l : ProfEvlist) (f : OutFile) : Prop where
  state : t.state = .running
  evlist : t.evlist = some l
  file : t.outputFile = some f
  path : f.path = outfile t.tid
  coupled : ∀ e ∈ l.entries, Coupled e
  room : t.nbRecord < profRecordCache

theorem RunningSlot.stream_eq {t : ProfTinfo} {l : ProfEvlist} {f : OutFile}
    (h : RunningSlot t l f) : t.stream = f.data ++ recordBytes t.buffer := by
  rw [ProfTinfo.stream, h.file]

/-- Storing a record at `nb_record` extends the buffer. -/
theorem buffer_store (t : ProfTinfo) (r : ProfRecord) :
    ProfTinfo.buffer { t with
      records := Function.update t.records t.nbRecord r, nbRecord := t.nbRecord + 1 } =
      t.buffer ++ [r] := by
  have hlow : (List.range t.nbRecord).map (Function.update t.records t.nbRecord r) =
      (List.range t.nbRecord).map t.records := by
    refine List.map_congr_left fun i hi => ?_
    rw [Function.update_of_ne (List.mem_range.1 hi).ne]
  simp only [ProfTinfo.buffer, List.range_succ, List.map_append, hlow, List.map_cons, List.map_nil,
    Function.update_self]

/-- The records `rs` went to the slot `t`, and nothing else happened. -/
structure Recorded (t : ProfTinfo) (f : OutFile) (os : Os) (rs : List ProfRecord) (t' : ProfTinfo)
    (f' : OutFile) (os' : Os) : Prop where
  tid : t'.tid = t.tid
  stream : t'.stream = t.stream ++ recordBytes rs
  path : f'.path = f.path
  own : os.files f.path = f.data → os'.files f'.path = f'.data
  others : ∀ path, path ≠ f.path → os'.files path = os.files path

theorem Recorded.refl (t : ProfTinfo) (f : OutFile) (os : Os) : Recorded t f os [] t f os :=
  ⟨rfl, by simp, rfl, id, fun _ _ => rfl⟩

theorem Recorded.trans {t t' t'' : ProfTinfo} {f f' f'' : OutFile} {os os' os'' : Os}
    {rs qs : List ProfRecord} (h : Recorded t f os rs t' f' os')
    (h' : Recorded t' f' os' qs t'' f'' os'') : Recorded t f os (rs ++ qs) t'' f'' os'' where
  tid := h'.tid.trans h.tid
  stream := by rw [h'.stream, h.stream, recordBytes_append, List.append_assoc]
  path := h'.path.trans h.path
  own hown := h'.own (h.own hown)
  others path hne := (h'.others path (by rwa [h.path])).trans (h.others path hne)

/-- A running slot takes the record of an event; the store stays inside the buffer. -/
theorem readEvent_spec {t : ProfTinfo} {l : ProfEvlist} {f : OutFile} (h : RunningSlot t l f)
    {e : ProfEvsel} (he : e ∈ l.entries) (c : ProbeCall) (samples : Nat → PmcSample) (i : Nat)
    (os : Os) :
    ∃ t' f' os', readEvent c i e (samples i) t os = .ok (t', os') ∧ RunningSlot t' l f' ∧
      Recorded t f os [c.recordOf samples i e] t' f' os' := by
  have hroom := h.room
  have hbuf := buffer_store t (c.recordOf samples i e)
  simp only [readEvent, (h.coupled e he).rdpmc_eq, hroom, ↓reduceIte]
  by_cases hfull : t.nbRecord + 1 = profRecordCache
  · -- the buffer is full: it goes to the file, in the middle of the call
    simp only [hfull, ↓reduceIte, h.file, Os.fwrite]
    rw [hfull, h.file] at hbuf
    have hpos : 0 < profRecordCache := by decide
    refine ⟨_, _, _, rfl, ⟨h.state, h.evlist, rfl, h.path, h.coupled, hpos⟩, rfl, ?_, rfl, ?_, ?_⟩
    · simp only [ProfTinfo.stream, h.file]
      rw [show c.record i (evselCount e (samples i)) = c.recordOf samples i e from rfl, hbuf]
      simp [ProfTinfo.buffer]
    · intro hown
      simp only [Function.update_self, hown, writeAt_end]
    · intro path hne
      simp only [Function.update_of_ne hne]
  · simp only [hfull, ↓reduceIte]
    refine ⟨_, f, os, rfl, ⟨h.state, h.evlist, h.file, h.path, h.coupled, ?_⟩, rfl, ?_, rfl, id,
      fun _ _ => rfl⟩
    · simp only
      omega
    · simp only [ProfTinfo.stream]
      rw [show c.record i (evselCount e (samples i)) = c.recordOf samples i e from rfl, hbuf]
      simp

theorem readEvents_spec {l : ProfEvlist} (c : ProbeCall) (samples : Nat → PmcSample) :
    ∀ {es : List ProfEvsel} {i : Nat} {t : ProfTinfo} {f : OutFile} (os : Os),
      (∀ e ∈ es, e ∈ l.entries) → RunningSlot t l f →
      ∃ t' f' os', readEvents c samples i es t os = .ok (t', os') ∧ RunningSlot t' l f' ∧
        Recorded t f os (es.mapIdx fun j => c.recordOf samples (i + j)) t' f' os'
  | [], i, t, f, os, _, h => ⟨t, f, os, rfl, h, Recorded.refl t f os⟩
  | e :: es, i, t, f, os, hmem, h => by
    obtain ⟨t1, f1, os1, h1, hrun1, hrec1⟩ :=
      readEvent_spec h (hmem e List.mem_cons_self) c samples i os
    obtain ⟨t2, f2, os2, h2, hrun2, hrec2⟩ := readEvents_spec c samples (i := i + 1) os1
      (fun x hx => hmem x (List.mem_cons_of_mem _ hx)) hrun1
    refine ⟨t2, f2, os2, ?_, hrun2, ?_⟩
    · simp only [readEvents, h1, h2]
    · have htail : (fun j => c.recordOf samples (i + (j + 1))) =
          fun j => c.recordOf samples (i + 1 + j) := by
        funext j
        rw [Nat.add_right_comm, Nat.add_assoc]
      rw [List.mapIdx_cons, htail]
      exact hrec1.trans hrec2

/-- **A call of `__read_count`** on a running slot appends the records of the call. -/
theorem readCount_spec {t : ProfTinfo} {l : ProfEvlist} {f : OutFile} (h : RunningSlot t l f)
    (c : ProbeCall) (samples : Nat → PmcSample) (os : Os) :
    ∃ t' f' os', readCount c samples t os = .ok (t', os') ∧ RunningSlot t' l f' ∧
      Recorded t f os (callRecords c samples l.entries) t' f' os' := by
  obtain ⟨t', f', os', hr, hrun, hrec⟩ :=
    readEvents_spec c samples (i := 0) os (fun _ he => he) h
  simp only [Nat.zero_add] at hrec
  exact ⟨t', f', os', by simp only [readCount, h.evlist, hr], hrun, hrec⟩

/-! ## Event lists -/

theorem forall_forEach {P : ProfEvsel → Prop} {f : ProfEvsel → Os → ProfEvsel × Os}
    (hf : ∀ e os, P e → P (f e os).1) :
    ∀ {es : List ProfEvsel} (os : Os), (∀ e ∈ es, P e) → ∀ e ∈ (forEach f es os).1, P e
  | [], _, h => h
  | x :: es, os, h => by
    intro e he
    rcases List.mem_cons.1 he with rfl | he
    · exact hf x os (h x List.mem_cons_self)
    · exact forall_forEach hf _ (fun y hy => h y (List.mem_cons_of_mem _ hy)) e he

theorem sound_openEach (pid : Int) : ∀ {es : List ProfEvsel} (os : Os),
    (∀ e ∈ es, Sound e) → ∀ e ∈ (openEach pid es os).2.1, Sound e
  | [], _, h => h
  | x :: es, os, h => by
    have hx : Sound (if x.isOpen then (0, x, os) else profEvselOpen x pid os).2.1 := by
      split
      · exact h x List.mem_cons_self
      · rename_i ho
        have hopen : Sound (EvselOp.apply (x, os) (.open pid)).1 :=
          (h x List.mem_cons_self).apply (fun _ _ => by simpa using ho) (fun h => (by cases h))
        exact hopen
    simp only [openEach]
    generalize (if x.isOpen then (0, x, os) else profEvselOpen x pid os) = r at hx ⊢
    split
    · intro e he
      rcases List.mem_cons.1 he with rfl | he
      · exact hx
      · exact h e (List.mem_cons_of_mem _ he)
    · intro e he
      rcases List.mem_cons.1 he with rfl | he
      · exact hx
      · exact sound_openEach pid _ (fun y hy => h y (List.mem_cons_of_mem _ hy)) e he

section

variable {P : ProfEvsel → Prop}

/-- Adding to a list appends fresh selectors. -/
theorem forall_profEvlistAdd (hP : ∀ name attr idx, P (freshEvsel name attr idx))
    {evlist : ProfEvlist} (h : ∀ e ∈ evlist.entries, P e) (str : CStr) :
    ∀ e ∈ (profEvlistAdd evlist str).2.entries, P e := by
  unfold profEvlistAdd
  split
  · exact h
  · intro e he
    rcases List.mem_append.1 he with he | he
    · exact h e he
    · rw [List.mem_singleton] at he
      subst he
      exact hP _ _ _

theorem forall_addLoop (hP : ∀ name attr idx, P (freshEvsel name attr idx)) {len : Nat} :
    ∀ {fuel : Nat} {evlist : ProfEvlist} (cur : Nat) (rest : CStr), (∀ e ∈ evlist.entries, P e) →
      ∀ e ∈ (addLoop len fuel evlist cur rest).2.1.entries, P e
  | 0, _, _, _, h => h
  | fuel + 1, evlist, cur, rest, h => by
    simp only [addLoop]
    split
    · exact h
    · split
      · exact forall_profEvlistAdd hP h _
      · exact forall_addLoop hP _ _ (forall_profEvlistAdd hP h _)

theorem forall_addFromStr (hP : ∀ name attr idx, P (freshEvsel name attr idx))
    {evlist : ProfEvlist} (h : ∀ e ∈ evlist.entries, P e) (str : Option CStr) :
    ∀ e ∈ (profEvlistAddFromStr evlist str).2.entries, P e := by
  cases str with
  | none => exact h
  | some str =>
    simp only [profEvlistAddFromStr]
    split
    · exact h
    · split
      · exact forall_profEvlistAdd hP (forall_addLoop hP _ _ h) _
      · exact forall_addLoop hP _ _ h

end

theorem sound_addFromStr {evlist : ProfEvlist} (h : ∀ e ∈ evlist.entries, Sound e)
    (str : Option CStr) : ∀ e ∈ (profEvlistAddFromStr evlist str).2.entries, Sound e :=
  forall_addFromStr sound_freshEvsel h str

/-- A started list has coupled events only. -/
theorem sound_profEvlistStart {evlist : ProfEvlist} (h : ∀ e ∈ evlist.entries, Sound e) (os : Os)
    (hok : ¬ (profEvlistStart evlist os).1 < 0) :
    ∀ e ∈ (profEvlistStart evlist os).2.1.entries, Sound e := by
  simp only [profEvlistStart] at hok ⊢
  split
  · refine forall_forEach (fun e os he => ?_) _ (sound_openEach _ _ h)
    have henable : Sound (EvselOp.apply (e, os) .enable).1 :=
      he.apply (fun _ h => (by cases h)) (fun h => (by cases h))
    exact henable
  · rename_i hc
    simp [hc] at hok

/-! ## Files

The operations on events leave the files alone, and open and close none. -/

structure EventCalls (os os' : Os) : Prop where
  files : os'.files = os.files
  fileOps : fileOps os'.trace = fileOps os.trace

theorem EventCalls.refl (os : Os) : EventCalls os os := ⟨rfl, rfl⟩

theorem EventCalls.trans {os os' os'' : Os} (h : EventCalls os os') (h' : EventCalls os' os'') :
    EventCalls os os'' :=
  ⟨h'.files.trans h.files, h'.fileOps.trans h.fileOps⟩

theorem EventCalls.log (os : Os) {c : Syscall} (h : fileOp c = none) :
    EventCalls os (os.log c) := by
  refine ⟨rfl, ?_⟩
  simp [Probe.fileOps, List.filterMap_append, h]

theorem eventCalls_unmapPage (e : ProfEvsel) (os : Os) : EventCalls os (unmapPage e os).2 := by
  unfold unmapPage
  split
  · exact .log os rfl
  · exact .refl os

theorem eventCalls_profEvselDisable (e : ProfEvsel) (os : Os) :
    EventCalls os (profEvselDisable e os).2 := by
  unfold profEvselDisable
  split
  · exact .refl os
  · split
    · exact .refl os
    · exact (eventCalls_unmapPage e os).trans (.log _ rfl)

theorem eventCalls_profEvselEnable (e : ProfEvsel) (os : Os) :
    EventCalls os (profEvselEnable e os).2.2 := by
  unfold profEvselEnable
  split
  · exact .refl os
  · split
    · exact .refl os
    · split
      · exact .refl os
      · have hm : EventCalls os ((os.ioctl e.fd .enable).mmap e.fd).2 :=
          (EventCalls.log os rfl).trans (.log _ rfl)
        rcases hp : (os.ioctl e.fd .enable).mmap e.fd with ⟨_ | p, os'⟩ <;> rw [hp] at hm <;>
          simp only [hp]
        · exact (hm.trans (eventCalls_unmapPage _ _)).trans (.log _ rfl)
        · exact hm

theorem eventCalls_profEvselClose (e : ProfEvsel) (os : Os) :
    EventCalls os (profEvselClose e os).2 := by
  have h1 : EventCalls os (if e.isEnable then profEvselDisable e os else (e, os)).2 := by
    split
    · exact eventCalls_profEvselDisable e os
    · exact .refl os
  unfold profEvselClose
  split
  · exact .refl os
  · generalize (if e.isEnable then profEvselDisable e os else (e, os)) = r at h1 ⊢
    dsimp only
    split
    · exact h1
    · exact h1.trans (.log _ rfl)

theorem OpenRun.eventCalls {pid : Int} {attr : PerfEventAttr} {left : Nat} {os os' : Os}
    {res : Except Errno Nat} (h : OpenRun pid attr left os os' res) : EventCalls os os' := by
  induction h with
  | granted => exact .log _ rfl
  | refused => exact .log _ rfl
  | noLimit => exact (EventCalls.log _ rfl).trans (.log _ rfl)
  | notRaised l => exact ((EventCalls.log _ rfl).trans (.log _ rfl)).trans (.log _ rfl)
  | retried l _ _ ih =>
    exact (((EventCalls.log _ rfl).trans (.log _ rfl)).trans (.log _ rfl)).trans ih

theorem eventCalls_retryOpen (pid : Int) (left : Nat) (e : ProfEvsel) (os : Os) :
    EventCalls os (retryOpen pid left e os).2.2 := by
  obtain ⟨os', res, hrun, heq⟩ := retryOpen_run pid left e os
  rw [heq]
  exact hrun.eventCalls

theorem eventCalls_forEach {f : ProfEvsel → Os → ProfEvsel × Os}
    (hf : ∀ e os, EventCalls os (f e os).2) :
    ∀ (es : List ProfEvsel) (os : Os), EventCalls os (forEach f es os).2
  | [], os => .refl os
  | e :: es, os => (hf e os).trans (eventCalls_forEach hf es _)

theorem eventCalls_deleteEach : ∀ (es : List ProfEvsel) (os : Os), EventCalls os (deleteEach es os)
  | [], os => .refl os
  | e :: es, os => by
    refine EventCalls.trans ?_ (eventCalls_deleteEach es (profEvselDelete e os))
    unfold profEvselDelete
    split
    · exact eventCalls_profEvselClose e os
    · exact .refl os

theorem eventCalls_profEvlistDelete (evlist : ProfEvlist) (os : Os) :
    EventCalls os (profEvlistDelete evlist os) :=
  (eventCalls_forEach eventCalls_profEvselClose _ _).trans (eventCalls_deleteEach _ _)

theorem eventCalls_openEach (pid : Int) : ∀ (es : List ProfEvsel) (os : Os),
    EventCalls os (openEach pid es os).2.2
  | [], os => .refl os
  | e :: es, os => by
    have h1 : EventCalls os (if e.isOpen then (0, e, os) else profEvselOpen e pid os).2.2 := by
      split
      · exact .refl os
      · exact eventCalls_retryOpen _ _ _ _
    simp only [openEach]
    generalize (if e.isOpen then (0, e, os) else profEvselOpen e pid os) = r at h1 ⊢
    split
    · exact h1
    · exact h1.trans (eventCalls_openEach pid es _)

theorem eventCalls_profEvlistStart (evlist : ProfEvlist) (os : Os) :
    EventCalls os (profEvlistStart evlist os).2.2 := by
  have hopen := eventCalls_openEach evlist.pid evlist.entries os
  simp only [profEvlistStart]
  split
  · exact hopen.trans (eventCalls_forEach (fun e os => eventCalls_profEvselEnable e os) _ _)
  · refine hopen.trans (eventCalls_forEach (fun e os => ?_) _ _)
    unfold closeIfOpen
    split
    · exact eventCalls_profEvselClose e os
    · exact .refl os

end Lprofile.Probe
