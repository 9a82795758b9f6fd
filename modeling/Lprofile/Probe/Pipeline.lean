import Lprofile.Probe.Exit
import Lprofile.Probe.Threads
import Lprofile.Utils.Report

/-!
# From probe to report

`pipeMachine` is the probe library at work: threads are registered, and their
probe calls run concurrently, one event at a time, so that a flush in the middle
of a call can fall between any two steps of other threads; then `lprobe_exit`,
possibly more than once, and whatever probes still come. A call in progress is a
`CallSt`; `lprobeFunc_steps` is the connection with the probe run as a whole.

`PipeOk` ties the stream of each running slot to the history: what is in the
file and the buffer, with what the call in progress still has to add, is the
concatenation of the records of the thread's own calls (`pipeOk_step`). After
`lprobe_exit` no slot is running and the files no longer change (`Done.step`).
-/

namespace Lprofile.Probe

open Lprofile.Lib

/-- A call of `__read_count` in progress, about to read the event `next`. -/
structure CallSt where
  call : ProbeCall
  samples : Nat → PmcSample
  slot : Fin profThreadMax
  next : Nat

structure PipeSt where
  proc : Proc
  tls : Int → Tls
  busy : Int → Option CallSt
  exited : Bool

inductive PipeStep where
  | register (tid : Int)
  /-- thread `tid` calls a probe, up to the loop of `__read_count` -/
  | enter (tid : Int) (call : ProbeCall) (samples : Nat → PmcSample)
  /-- one round of that loop, or its end -/
  | event (tid : Int)
  /-- `lprobe_exit` -/
  | exit

/-- One round of the loop of `__read_count`; past the last event the call returns. -/
def PipeSt.round (s : PipeSt) (tid : Int) (b : CallSt) : Except Fault PipeSt :=
  match (s.proc.slot b.slot).evlist with
  | none => .error .nullEvlist
  | some l =>
    match l.entries[b.next]? with
    | none => .ok { s with busy := Function.update s.busy tid none }
    | some e =>
      match readEvent b.call b.next e (b.samples b.next) (s.proc.slot b.slot) s.proc.os with
      | .error f => .error f
      | .ok r => .ok { s with
          proc := { s.proc.setSlot b.slot r.1 with os := r.2 }
          busy := Function.update s.busy tid (some { b with next := b.next + 1 }) }

/-- Up to `lprobe_exit`, the probes come from registered threads and the tids differ. -/
def pipeMachine : Machine PipeSt PipeStep Fault where
  Enabled s
    | .register tid => s.exited = false ∧ ValidTid tid ∧ ∀ i, (s.proc.slot i).tid ≠ tid
    | .enter tid _ _ => s.busy tid = none ∧
        (s.exited = false → ∃ i ∈ s.proc.inits, (s.proc.slot i).tid = tid)
    | .event tid => ∃ b, s.busy tid = some b
    | .exit => ∀ tid, s.busy tid = none
  step s
    | .register tid =>
      match lprobeThreadInit tid s.proc with
      | .error f => .error f
      | .ok g => .ok { s with proc := g }
    | .enter tid call samples =>
      let r := enterProbe tid (s.tls tid) s.proc.info
      .ok { s with
        tls := Function.update s.tls tid r.1
        busy := Function.update s.busy tid (r.2.map fun i => ⟨call, samples, i, 0⟩) }
    | .event tid =>
      match s.busy tid with
      | none => .ok s
      | some b => s.round tid b
    | .exit => .ok { s with proc := lprobeExit s.proc, exited := true }

/-- After `lprobe_init` in the main thread `pid`. -/
def PipeSt.start (pid : Int) (tls : Tls) (g : Proc) : PipeSt :=
  ⟨g, fun tid => if tid = pid then tls else .initial, fun _ => none, false⟩

/-! ## A probe as a whole -/

theorem setSlot_setSlot (g : Proc) (i : Fin profThreadMax) (t t' : ProfTinfo) :
    (g.setSlot i t).setSlot i t' = g.setSlot i t' := by
  simp only [Proc.setSlot, Function.update_idem]

theorem readEvent_evlist {c : ProbeCall} {i : Nat} {e : ProfEvsel} {sample : PmcSample}
    {t t' : ProfTinfo} {os os' : Os} (h : readEvent c i e sample t os = .ok (t', os')) :
    t'.evlist = t.evlist := by
  unfold readEvent at h
  split at h
  · cases h
  · split at h
    · dsimp only at h
      split at h
      · split at h
        · cases h
        · cases h
          rfl
      · cases h
        rfl
    · cases h

/-- The loop of `__read_count` from event `b.next` on is that many rounds. -/
theorem readEvents_steps {tid : Int} {l : ProfEvlist} :
    ∀ {es : List ProfEvsel} {s : PipeSt} {b : CallSt} {r : ProfTinfo × Os},
      s.busy tid = some b → (s.proc.slot b.slot).evlist = some l → l.entries.drop b.next = es →
      readEvents b.call b.samples b.next es (s.proc.slot b.slot) s.proc.os = .ok r →
      pipeMachine.run s (List.replicate (es.length + 1) (.event tid)) =
        .ok { s with
          proc := { s.proc.setSlot b.slot r.1 with os := r.2 }
          busy := Function.update s.busy tid none }
  | [], s, b, r, hb, hl, hes, hr => by
    cases hr
    have hnext : l.entries[b.next]? = none := by simpa using hes
    have hsame : ({ s.proc.setSlot b.slot (s.proc.slot b.slot) with os := s.proc.os } : Proc) =
        s.proc := by
      simp only [Proc.setSlot, Proc.slot, Function.update_eq_self]
    have hstep : pipeMachine.step s (.event tid) =
        .ok { s with busy := Function.update s.busy tid none } := by
      simp only [pipeMachine, hb, PipeSt.round, hl, hnext]
    rw [hsame, List.length_nil, Nat.zero_add, List.replicate_one, Machine.run_cons_ok hstep]
    rfl
  | e :: es, s, b, r, hb, hl, hes, hr => by
    have hnext : l.entries[b.next]? = some e := by
      rw [← List.head?_drop, hes]
      rfl
    have hdrop : l.entries.drop (b.next + 1) = es := by
      rw [← List.drop_drop, hes]
      rfl
    simp only [readEvents] at hr
    split at hr
    · rename_i q hq
      obtain ⟨t', os'⟩ := q
      have hev := readEvent_evlist hq
      let g : Proc := { s.proc.setSlot b.slot t' with os := os' }
      have hslot : g.slot b.slot = t' := by
        simp only [g, Proc.slot, Proc.setSlot, Function.update_self]
      have hstep : pipeMachine.step s (.event tid) = .ok { s with
          proc := g
          busy := Function.update s.busy tid (some { b with next := b.next + 1 }) } := by
        simp only [pipeMachine, hb, PipeSt.round, hl, hnext, hq, g]
      rw [List.length_cons, List.replicate_succ, Machine.run_cons_ok hstep]
      rw [readEvents_steps (Function.update_self ..) (by rw [← hl, ← hev, ← hslot]) hdrop
        (by rw [← hr, ← hslot])]
      simp only [g, Function.update_idem]
      rw [← setSlot_setSlot s.proc b.slot t' r.1]
      rfl
    · cases hr

/-- **A probe run as a whole** is its first half and as many rounds as the event list needs. -/
theorem lprobeFunc_steps {s : PipeSt} {tid : Int} {call : ProbeCall} {samples : Nat → PmcSample}
    {tls : Tls} {g : Proc} (h : lprobeFunc call samples tid (s.tls tid) s.proc = .ok (tls, g)) :
    ∃ n, pipeMachine.run s (.enter tid call samples :: List.replicate n (.event tid)) = .ok { s with
      proc := g
      tls := Function.update s.tls tid tls
      busy := Function.update s.busy tid none } := by
  rcases he : enterProbe tid (s.tls tid) s.proc.info with ⟨tls', _ | i⟩
  · simp only [lprobeFunc, he] at h
    cases h
    refine ⟨0, ?_⟩
    rw [List.replicate_zero, Machine.run_cons_ok rfl]
    simp only [he, Option.map_none]
    rfl
  · simp only [lprobeFunc, he] at h
    split at h
    · cases h
    · rename_i r hr
      cases h
      unfold readCount at hr
      split at hr
      · cases hr
      · rename_i l hl
        refine ⟨l.entries.length + 1, ?_⟩
        have hrun := readEvents_steps (b := ⟨call, samples, i, 0⟩) (s := { s with
            tls := Function.update s.tls tid tls
            busy := Function.update s.busy tid (some ⟨call, samples, i, 0⟩) })
          (Function.update_self ..) hl rfl hr
        rw [Machine.run_cons_ok rfl]
        simp only [he, Option.map_some]
        simpa only [Function.update_idem, List.drop_zero] using hrun

/-! ## What a history says a file should hold -/

/-- The probe calls of thread `tid`, in order. -/
def callsOf (tid : Int) (h : List PipeStep) : List (ProbeCall × (Nat → PmcSample)) :=
  h.filterMap fun
    | .enter t call samples => if t = tid then some (call, samples) else none
    | _ => none

/-- The records of these calls on the event list `es`. -/
def recordsOf (es : List ProfEvsel) (calls : List (ProbeCall × (Nat → PmcSample))) :
    List ProfRecord :=
  calls.flatMap fun c => callRecords c.1 c.2 es

/-- What the call in progress still has to record. -/
def pending (es : List ProfEvsel) : Option CallSt → List ProfRecord
  | none => []
  | some b => (callRecords b.call b.samples es).drop b.next

theorem callsOf_append (tid : Int) (h h' : List PipeStep) :
    callsOf tid (h ++ h') = callsOf tid h ++ callsOf tid h' := List.filterMap_append

theorem callsOf_register (t tid : Int) (h : List PipeStep) :
    callsOf t (h ++ [.register tid]) = callsOf t h :=
  (callsOf_append t h _).trans (List.append_nil _)

theorem callsOf_event (t tid : Int) (h : List PipeStep) :
    callsOf t (h ++ [.event tid]) = callsOf t h :=
  (callsOf_append t h _).trans (List.append_nil _)

theorem callsOf_enter_self (tid : Int) (call : ProbeCall) (samples : Nat → PmcSample)
    (h : List PipeStep) :
    callsOf tid (h ++ [.enter tid call samples]) = callsOf tid h ++ [(call, samples)] := by
  rw [callsOf_append]
  simp [callsOf]

theorem callsOf_enter_of_ne {t tid : Int} (ht : t ≠ tid) (call : ProbeCall)
    (samples : Nat → PmcSample) (h : List PipeStep) :
    callsOf t (h ++ [.enter tid call samples]) = callsOf t h := by
  rw [callsOf_append]
  simp [callsOf, ht.symm]

theorem recordsOf_append (es : List ProfEvsel) (cs ds : List (ProbeCall × (Nat → PmcSample))) :
    recordsOf es (cs ++ ds) = recordsOf es cs ++ recordsOf es ds := List.flatMap_append

theorem length_recordsOf (es : List ProfEvsel) (calls : List (ProbeCall × (Nat → PmcSample))) :
    (recordsOf es calls).length = calls.length * es.length := by
  induction calls with
  | nil => rw [List.length_nil, Nat.zero_mul]; rfl
  | cons c calls ih =>
    have hone : (callRecords c.1 c.2 es).length = es.length := List.length_mapIdx
    rw [show recordsOf es (c :: calls) = callRecords c.1 c.2 es ++ recordsOf es calls from rfl,
      List.length_append, hone, ih, List.length_cons, Nat.succ_mul, Nat.add_comm]

theorem callRecords_getElem? {call : ProbeCall} {samples : Nat → PmcSample}
    {es : List ProfEvsel} {n : Nat} {e : ProfEvsel} (h : es[n]? = some e) :
    (callRecords call samples es)[n]? = some (call.recordOf samples n e) := by
  simp [callRecords, h]

/-- Reading event `next` moves one record from the pending ones to the stream. -/
theorem pending_next {es : List ProfEvsel} {b : CallSt} {e : ProfEvsel}
    (h : es[b.next]? = some e) :
    pending es (some b) =
      b.call.recordOf b.samples b.next e :: pending es (some { b with next := b.next + 1 }) := by
  simp only [pending]
  exact List.drop_eq_getElem?_toList_append.trans (by rw [callRecords_getElem? h]; rfl)

theorem pending_end {es : List ProfEvsel} {b : CallSt} (h : es[b.next]? = none) :
    pending es (some b) = [] := by
  simp only [pending]
  refine List.drop_eq_nil_of_le ?_
  simpa [callRecords] using h

/-! ## Before `lprobe_exit` -/

structure PipeOk (h : List PipeStep) (s : PipeSt) : Prop where
  slots : SlotInv s.proc
  table : TableOk s.proc
  valid : ∀ i ∈ s.proc.inits, ValidTid (s.proc.slot i).tid
  distinct : ∀ i ∈ s.proc.inits, ∀ j ∈ s.proc.inits,
    (s.proc.slot i).tid = (s.proc.slot j).tid → i = j
  tls : ∀ tid, (s.tls tid).isIgnore = false ∧
    ∀ j, (s.tls tid).threadinfo = some j → j ∈ s.proc.inits ∧ (s.proc.slot j).tid = tid
  busy : ∀ tid b, s.busy tid = some b →
    (s.proc.slot b.slot).tid = tid ∧ (s.proc.slot b.slot).state = .running
  /-- a thread without a slot has made no call -/
  stranger : ∀ tid, (∀ i ∈ s.proc.inits, (s.proc.slot i).tid ≠ tid) →
    callsOf tid h = [] ∧ s.busy tid = none
  file : ∀ i, FileOk s.proc i
  stream : ∀ i l f, RunningSlot (s.proc.slot i) l f →
    (s.proc.slot i).stream ++ recordBytes (pending l.entries (s.busy (s.proc.slot i).tid)) =
      recordBytes (recordsOf l.entries (callsOf (s.proc.slot i).tid h))
  isError : s.proc.info.isError = false
  flog : s.proc.info.flog = none
  exited : s.exited = false

theorem RunningSlot.unique {t : ProfTinfo} {l l' : ProfEvlist} {f f' : OutFile}
    (h : RunningSlot t l f) (h' : RunningSlot t l' f') : l = l' ∧ f = f' :=
  ⟨Option.some.inj (h.evlist.symm.trans h'.evlist), Option.some.inj (h.file.symm.trans h'.file)⟩

/-- Nothing has been recorded in a slot with an empty buffer and a fresh file. -/
theorem stream_of_empty {t : ProfTinfo} {l : ProfEvlist} {path : CStr}
    (h : RunningSlot t l ⟨path, []⟩) (hnb : t.nbRecord = 0) : t.stream = [] := by
  rw [h.stream_eq]
  simp [ProfTinfo.buffer, hnb]

theorem PipeOk.apart {h : List PipeStep} {s : PipeSt} (hp : PipeOk h s) : Apart s.proc where
  tid i hi := (hp.valid i (hp.table.mem_inits_of_running hi)).pos
  file i j hi hj hne := by
    have hvi := hp.valid i (hp.table.mem_inits_of_running hi)
    have hvj := hp.valid j (hp.table.mem_inits_of_running hj)
    intro e
    refine hne (hp.distinct i (hp.table.mem_inits_of_running hi) j
      (hp.table.mem_inits_of_running hj) ?_)
    exact outfile_injective ⟨hvi.pos.le, hvi.lt⟩ ⟨hvj.pos.le, hvj.lt⟩ e

theorem PipeOk.start {pid : Int} {tls : Tls} {g : Proc} (h : InitOk pid tls g)
    (hpid : ValidTid pid)
    (hdist : ∀ i ∈ g.inits, ∀ j ∈ g.inits, (g.slot i).tid = (g.slot j).tid → i = j) :
    PipeOk [] (.start pid tls g) where
  slots := h.toSlotInv
  table := h.table
  valid i hi := (h.idle i hi).tid
  distinct := hdist
  tls tid := by
    simp only [PipeSt.start]
    split
    · rename_i htid
      refine ⟨h.heeds, fun j hj => ?_⟩
      have hf := (findTinfo_eq_some.1 (h.lookup.trans hj)).1
      refine ⟨h.table.mem_inits ?_, hf.trans htid.symm⟩
      rw [Proc.slot, hf]
      exact hpid.pos
    · exact ⟨rfl, fun j hj => (by cases hj)⟩
  busy _ _ hb := (by cases hb)
  stranger _ _ := ⟨rfl, rfl⟩
  file i l f hrun := by
    have hi := h.idle i (h.table.mem_inits_of_running hrun.state)
    obtain ⟨l', hrun'⟩ := hi.running hrun.state
    obtain ⟨-, rfl⟩ := hrun.unique hrun'
    exact hi.file hrun.state
  stream i l f hrun := by
    have hi := h.idle i (h.table.mem_inits_of_running hrun.state)
    obtain ⟨l', hrun'⟩ := hi.running hrun.state
    have hs := stream_of_empty hrun' hi.nbRecord
    show (g.slot i).stream ++ [] = []
    rw [hs]
    rfl
  isError := h.isError
  flog := h.flog
  exited := rfl

/-- A running slot and a registered one with the same tid are the same. -/
theorem PipeOk.eq_of_tid {h : List PipeStep} {s : PipeSt} (hp : PipeOk h s)
    {i j : Fin profThreadMax} (hi : (s.proc.slot i).state = .running) (hj : j ∈ s.proc.inits)
    (e : (s.proc.slot i).tid = (s.proc.slot j).tid) : i = j :=
  hp.distinct i (hp.table.mem_inits_of_running hi) j hj e

/-! ### Registration -/

theorem Registers.distinct {g g' : Proc} {tid : Int} {id : Fin profThreadMax}
    (r : Registers g tid id g') (htid : (g'.slot id).tid = tid) (hnew : ∀ i, (g.slot i).tid ≠ tid)
    (h : ∀ i ∈ g.inits, ∀ j ∈ g.inits, (g.slot i).tid = (g.slot j).tid → i = j) :
    ∀ i ∈ g'.inits, ∀ j ∈ g'.inits, (g'.slot i).tid = (g'.slot j).tid → i = j := by
  intro i hi j hj e
  rw [r.inits, List.mem_append, List.mem_singleton] at hi hj
  by_cases hni : i = id <;> by_cases hnj : j = id
  · rw [hni, hnj]
  · rw [hni, htid, r.slot_ne j hnj] at e
    exact absurd e.symm (hnew j)
  · rw [hnj, htid, r.slot_ne i hni] at e
    exact absurd e (hnew i)
  · rw [r.slot_ne i hni, r.slot_ne j hnj] at e
    exact h i (hi.resolve_right hni) j (hj.resolve_right hnj) e

/-- The files of the running slots after a registration: the new one is empty, the others have
other names. -/
theorem Registers.fileOk {g g' : Proc} {tid : Int} {id : Fin profThreadMax}
    (r : Registers g tid id g') (ht : TableOk g) (hid : id ∉ g.inits) (hvalid : ValidTid tid)
    (hnew : ∀ i, (g.slot i).tid ≠ tid) (hv : ∀ i ∈ g.inits, ValidTid (g.slot i).tid)
    (h : ∀ i, FileOk g i) (i : Fin profThreadMax) : FileOk g' i := by
  have hinit := r.initialised ht hid
  intro l f hrun
  by_cases hne : i = id
  · subst hne
    obtain ⟨l', hrun'⟩ := hinit.running hrun.state
    obtain ⟨-, rfl⟩ := hrun.unique hrun'
    exact hinit.own hrun.state
  · rw [r.slot_ne i hne] at hrun
    have hvi := hv i (ht.mem_inits_of_running hrun.state)
    rw [← h i l f hrun]
    refine hinit.others _ fun e => hnew i ?_
    rw [hrun.path] at e
    exact outfile_injective ⟨hvi.pos.le, hvi.lt⟩ ⟨hvalid.pos.le, hvalid.lt⟩ e

theorem PipeOk.registers {h : List PipeStep} {s : PipeSt} (hp : PipeOk h s) {tid : Int}
    (hvalid : ValidTid tid) (hnew : ∀ i, (s.proc.slot i).tid ≠ tid) {g : Proc}
    {id : Fin profThreadMax} (r : Registers s.proc tid id g) (hs : SlotInv g)
    (hid : id ∉ s.proc.inits) : PipeOk (h ++ [.register tid]) { s with proc := g } := by
  have hinit := r.initialised hp.table hid
  obtain ⟨hnone, hidle⟩ := hp.stranger tid fun i _ => hnew i
  refine ⟨hs, r.tableOk hp.table hid, ?_, r.distinct hinit.tid hnew hp.distinct, fun t => ?_,
    fun t b hb => ?_, fun t ht => ?_, r.fileOk hp.table hid hvalid hnew hp.valid hp.file,
    fun i l f hrun => ?_, ?_, ?_, hp.exited⟩
  · refine r.forall_inits (P := fun t => ValidTid t.tid) ?_ hp.valid
    rw [hinit.tid]
    exact hvalid
  · refine ⟨(hp.tls t).1, fun j hj => ?_⟩
    obtain ⟨hj, ht⟩ := (hp.tls t).2 j hj
    rw [r.slot_of_mem hid hj]
    exact ⟨r.mem_inits hj, ht⟩
  · obtain ⟨ht, hrun⟩ := hp.busy t b hb
    rw [r.slot_of_mem hid (hp.table.mem_inits_of_running hrun)]
    exact ⟨ht, hrun⟩
  · rw [callsOf_register]
    refine hp.stranger t fun i hi => ?_
    rw [← r.slot_of_mem hid hi]
    exact ht i (r.mem_inits hi)
  · rw [callsOf_register]
    by_cases hne : i = id
    · subst hne
      obtain ⟨l', hrun'⟩ := hinit.running hrun.state
      rw [hinit.tid, hnone, hidle, stream_of_empty hrun' hinit.nbRecord]
      rfl
    · have hslot := r.slot_ne i hne
      simp only [hslot] at hrun ⊢
      exact hp.stream i l f hrun
  · rw [r.isError]
    exact hp.isError
  · rw [r.flog]
    exact hp.flog

/-- A registration takes a slot, or finds the table full. -/
theorem PipeOk.register {h : List PipeStep} {s : PipeSt} (hp : PipeOk h s) {tid : Int}
    (hen : pipeMachine.Enabled s (.register tid)) :
    ∃ s', pipeMachine.step s (.register tid) = .ok s' ∧ PipeOk (h ++ [.register tid]) s' := by
  obtain ⟨-, hvalid, hnew⟩ := hen
  rcases lprobeThreadInit_cases hp.slots tid with ⟨hg, -⟩ | ⟨g, id, hg, -, hnb, r, hs⟩
  · refine ⟨s, by simp only [pipeMachine, hg], ?_⟩
    exact { hp with
      stranger := fun t ht => by rw [callsOf_register]; exact hp.stranger t ht
      stream := fun i l f hrun => by rw [callsOf_register]; exact hp.stream i l f hrun }
  · refine ⟨{ s with proc := g }, by simp only [pipeMachine, hg], ?_⟩
    exact hp.registers hvalid hnew r hs (hp.slots.not_mem_inits hnb)

/-! ### Calls -/

/-- A registered thread finds its slot, which is the only one with its tid. -/
theorem PipeOk.enterProbe_eq {h : List PipeStep} {s : PipeSt} (hp : PipeOk h s) {tid : Int}
    {i : Fin profThreadMax} (hi : i ∈ s.proc.inits) (htid : (s.proc.slot i).tid = tid) :
    ∃ tls', tls'.isIgnore = false ∧ tls'.threadinfo = some i ∧
      enterProbe tid (s.tls tid) s.proc.info =
        (tls', if (s.proc.slot i).state = .running then some i else none) := by
  rcases enterProbe_cases tid (s.tls tid) s.proc.info with
    ⟨hig, -⟩ | ⟨-, -, hf, -⟩ | ⟨j, tls', -, hig', hti', hfrom, he⟩
  · rw [(hp.tls tid).1] at hig
    cases hig
  · exact absurd htid (findTinfo_eq_none.1 hf i)
  · have hj : j ∈ s.proc.inits ∧ (s.proc.slot j).tid = tid := by
      rcases hfrom with hti | ⟨-, hf⟩
      · exact (hp.tls tid).2 j hti
      · have hjt := (findTinfo_eq_some.1 hf).1
        refine ⟨hp.table.mem_inits ?_, hjt⟩
        rw [Proc.slot, hjt, ← htid]
        exact (hp.valid i hi).pos
    have hji : j = i := hp.distinct j hj.1 i hi (hj.2.trans htid.symm)
    subst hji
    exact ⟨tls', hig', hti', he⟩

/-- A registered thread calls a probe. -/
theorem PipeOk.enter {h : List PipeStep} {s : PipeSt} (hp : PipeOk h s) {tid : Int}
    {call : ProbeCall} {samples : Nat → PmcSample}
    (hen : pipeMachine.Enabled s (.enter tid call samples)) :
    ∃ s', pipeMachine.step s (.enter tid call samples) = .ok s' ∧
      PipeOk (h ++ [.enter tid call samples]) s' := by
  obtain ⟨hbusy, hreg⟩ := hen
  obtain ⟨i, hi, htid⟩ := hreg hp.exited
  obtain ⟨tls', hig', hti', he⟩ := hp.enterProbe_eq hi htid
  refine ⟨_, rfl, hp.slots, hp.table, hp.valid, hp.distinct, fun t => ?_, fun t b hb => ?_,
    fun t ht => ?_, hp.file, fun k l f hrun => ?_, hp.isError, hp.flog, hp.exited⟩
  · simp only [he]
    by_cases ht : t = tid
    · subst ht
      rw [Function.update_self]
      refine ⟨hig', fun j hj => ?_⟩
      rw [hti'] at hj
      cases hj
      exact ⟨hi, htid⟩
    · rw [Function.update_of_ne ht]
      exact hp.tls t
  · simp only [he] at hb
    by_cases ht : t = tid
    · subst ht
      rw [Function.update_self] at hb
      split at hb
      · rename_i hrun
        cases hb
        exact ⟨htid, hrun⟩
      · cases hb
    · rw [Function.update_of_ne ht] at hb
      exact hp.busy t b hb
  · have hne : t ≠ tid := fun e => ht i hi (htid.trans e.symm)
    simp only [Function.update_of_ne hne, callsOf_enter_of_ne hne]
    exact hp.stranger t ht
  · have hold := hp.stream k l f hrun
    simp only [he]
    by_cases ht : (s.proc.slot k).tid = tid
    · have hk := hp.eq_of_tid hrun.state hi (ht.trans htid.symm)
      subst hk
      rw [ht] at hold ⊢
      rw [hbusy] at hold
      have hpend : (s.proc.slot k).stream = recordBytes (recordsOf l.entries (callsOf tid h)) := by
        simpa [pending] using hold
      rw [Function.update_self, if_pos hrun.state, callsOf_enter_self, recordsOf_append,
        recordBytes_append, ← hpend]
      simp [pending, recordsOf]
    · rw [Function.update_of_ne ht, callsOf_enter_of_ne ht]
      exact hold

/-! ### Events -/

section

variable {h : List PipeStep} {s : PipeSt} {tid : Int} {b : CallSt} {l : ProfEvlist} {f : OutFile}

/-- The slot of the call in progress is the only running one with its tid. -/
theorem PipeOk.tid_ne_of_busy (hp : PipeOk h s) (hb : s.busy tid = some b) {k : Fin profThreadMax}
    (hk : k ≠ b.slot) (hrun : (s.proc.slot k).state = .running) : (s.proc.slot k).tid ≠ tid := by
  obtain ⟨htid, hstate⟩ := hp.busy tid b hb
  exact fun e =>
    hk (hp.eq_of_tid hrun (hp.table.mem_inits_of_running hstate) (e.trans htid.symm))

theorem PipeOk.stranger_ne (hp : PipeOk h s) (hb : s.busy tid = some b) {t : Int}
    (ht : ∀ i ∈ s.proc.inits, (s.proc.slot i).tid ≠ t) : t ≠ tid := by
  obtain ⟨htid, hstate⟩ := hp.busy tid b hb
  exact fun e => ht b.slot (hp.table.mem_inits_of_running hstate) (htid.trans e.symm)

/-- The call returns after its last event. -/
theorem PipeOk.return (hp : PipeOk h s) (hb : s.busy tid = some b)
    (hrun : RunningSlot (s.proc.slot b.slot) l f) (hnext : l.entries[b.next]? = none) :
    PipeOk (h ++ [.event tid]) { s with busy := Function.update s.busy tid none } := by
  have htid := (hp.busy tid b hb).1
  refine ⟨hp.slots, hp.table, hp.valid, hp.distinct, hp.tls, fun t b' hb' => ?_,
    fun t ht => ?_, hp.file, fun k l' f' hrun' => ?_, hp.isError, hp.flog, hp.exited⟩
  · simp only at hb'
    by_cases ht : t = tid
    · subst ht
      rw [Function.update_self] at hb'
      cases hb'
    · rw [Function.update_of_ne ht] at hb'
      exact hp.busy t b' hb'
  · simp only [callsOf_event, Function.update_of_ne (hp.stranger_ne hb ht)]
    exact hp.stranger t ht
  · simp only [callsOf_event]
    by_cases hk : k = b.slot
    · subst hk
      obtain ⟨rfl, rfl⟩ := hrun.unique hrun'
      have hown := hp.stream b.slot l f hrun
      rw [htid, hb] at hown
      rw [htid, Function.update_self, ← hown, pending_end hnext]
      rfl
    · rw [Function.update_of_ne (hp.tid_ne_of_busy hb hk hrun'.state)]
      exact hp.stream k l' f' hrun'

/-- Two calls in progress are in different slots. -/
theorem PipeOk.slot_ne_of_busy (hp : PipeOk h s) (hb : s.busy tid = some b) {t : Int} {b' : CallSt}
    (hb' : s.busy t = some b') (ht : t ≠ tid) : b'.slot ≠ b.slot := by
  intro e
  have htid' := (hp.busy t b' hb').1
  rw [e, (hp.busy tid b hb).1] at htid'
  exact ht htid'.symm

/-- Records of the slot `i` go to its own file. -/
theorem PipeOk.file_recorded (hp : PipeOk h s) {i : Fin profThreadMax}
    (hrun : RunningSlot (s.proc.slot i) l f) {rs : List ProfRecord} {g : Proc}
    (hext : Extends s.proc i rs g) {k : Fin profThreadMax} {l' : ProfEvlist} {f' : OutFile}
    (hrun' : RunningSlot (g.slot k) l' f') : g.os.files f'.path = f'.data := by
  obtain ⟨l₁, f₁, f₂, hrun₁, hrun₂, hrec⟩ := hext.slot
  obtain ⟨rfl, rfl⟩ := hrun.unique hrun₁
  by_cases hk : k = i
  · subst hk
    obtain ⟨-, rfl⟩ := hrun₂.unique hrun'
    exact hrec.own (hp.file _ l f hrun)
  · rw [hext.slot_ne k hk] at hrun'
    rw [← hp.file k l' f' hrun']
    refine hrec.others _ ?_
    rw [hrun'.path, hrun.path]
    exact hp.apart.file k i hrun'.state hrun.state hk

/-- The call in progress has recorded the event `next`. -/
theorem PipeOk.recorded (hp : PipeOk h s) (hb : s.busy tid = some b)
    (hrun : RunningSlot (s.proc.slot b.slot) l f) {e : ProfEvsel}
    (hnext : l.entries[b.next]? = some e) {g : Proc}
    (hext : Extends s.proc b.slot [b.call.recordOf b.samples b.next e] g) :
    PipeOk (h ++ [.event tid]) { s with
      proc := g, busy := Function.update s.busy tid (some { b with next := b.next + 1 }) } := by
  have htid := (hp.busy tid b hb).1
  obtain ⟨l1, f1, f', hrun1, hrun', hrec⟩ := hext.slot
  obtain ⟨rfl, rfl⟩ := hrun.unique hrun1
  refine ⟨hext.slotInv hp.slots, hext.tableOk hp.table, fun i hi => ?_,
    fun i hi j hj => ?_, fun t => ⟨(hp.tls t).1, fun j hj => ?_⟩, fun t b' hb' => ?_,
    fun t ht => ?_, fun k l2 f2 hrun2 => ?_, fun k l2 f2 hrun2 => ?_, ?_, ?_, hp.exited⟩
  · rw [hext.tid]
    exact hp.valid i (hext.inits ▸ hi)
  · rw [hext.tid, hext.tid]
    exact hp.distinct i (hext.inits ▸ hi) j (hext.inits ▸ hj)
  · rw [hext.tid, hext.inits]
    exact (hp.tls t).2 j hj
  · simp only at hb' ⊢
    by_cases ht : t = tid
    · subst ht
      rw [Function.update_self] at hb'
      cases hb'
      exact ⟨by rw [hext.tid]; exact htid, hrun'.state⟩
    · rw [Function.update_of_ne ht] at hb'
      rw [hext.slot_ne _ (hp.slot_ne_of_busy hb hb' ht)]
      exact hp.busy t b' hb'
  · have ht' : ∀ i ∈ s.proc.inits, (s.proc.slot i).tid ≠ t := by
      intro i hi
      rw [← hext.tid]
      exact ht i (hext.inits.symm ▸ hi)
    simp only [callsOf_event, Function.update_of_ne (hp.stranger_ne hb ht')]
    exact hp.stranger t ht'
  · exact hp.file_recorded hrun hext hrun2
  · simp only [callsOf_event, hext.tid]
    by_cases hk : k = b.slot
    · subst hk
      obtain ⟨rfl, -⟩ := hrun'.unique hrun2
      have hown := hp.stream b.slot l f hrun
      rw [htid, hb] at hown
      rw [htid, ← hown, Function.update_self, pending_next hnext, hrec.stream,
        List.append_assoc, ← recordBytes_append]
      rfl
    · simp only [hext.slot_ne k hk] at hrun2 ⊢
      rw [Function.update_of_ne (hp.tid_ne_of_busy hb hk hrun2.state)]
      exact hp.stream k l2 f2 hrun2
  · simp only
    rw [hext.info]
    exact hp.isError
  · simp only
    rw [hext.info]
    exact hp.flog

/-- One round of a call in progress. -/
theorem PipeOk.event (hp : PipeOk h s) (hen : pipeMachine.Enabled s (.event tid)) :
    ∃ s', pipeMachine.step s (.event tid) = .ok s' ∧ PipeOk (h ++ [.event tid]) s' := by
  obtain ⟨b, hb⟩ := hen
  obtain ⟨l, f, hrun⟩ := hp.table.running b.slot (hp.busy tid b hb).2
  simp only [pipeMachine, hb, PipeSt.round, hrun.evlist]
  cases hnext : l.entries[b.next]? with
  | none => exact ⟨_, rfl, hp.return hb hrun hnext⟩
  | some e =>
    obtain ⟨t', f', os', hread, hrun', hrec⟩ :=
      readEvent_spec hrun (List.mem_of_getElem? hnext) b.call b.samples b.next s.proc.os
    simp only [hread]
    exact ⟨_, rfl, hp.recorded hb hrun hnext (extends_setSlot hrun hrun' hrec)⟩

end

/-- **Every step before `lprobe_exit`** is free of faults and keeps the invariant. -/
theorem pipeOk_step {h : List PipeStep} {s : PipeSt} {a : PipeStep} (hp : PipeOk h s)
    (ha : a ≠ .exit) (hen : pipeMachine.Enabled s a) :
    ∃ s', pipeMachine.step s a = .ok s' ∧ PipeOk (h ++ [a]) s' := by
  cases a with
  | register tid => exact hp.register hen
  | enter tid call samples => exact hp.enter hen
  | event tid => exact hp.event hen
  | exit => exact absurd rfl ha

/-! ## From `lprobe_exit` on -/

/-- No slot is running, and the files are `files`. -/
structure Done (files : CStr → List Byte) (s : PipeSt) : Prop where
  exited : s.exited = true
  idle : ∀ i, (s.proc.slot i).state ≠ .running
  busy : ∀ tid, s.busy tid = none
  files : s.proc.os.files = files

theorem Done.step {files : CStr → List Byte} {s : PipeSt} (hd : Done files s) {a : PipeStep}
    (hen : pipeMachine.Enabled s a) : ∃ s', pipeMachine.step s a = .ok s' ∧ Done files s' := by
  cases a with
  | register tid =>
    obtain ⟨hex, -⟩ := hen
    rw [hd.exited] at hex
    cases hex
  | enter tid call samples =>
    have hnone : (enterProbe tid (s.tls tid) s.proc.info).2 = none := by
      rcases he : enterProbe tid (s.tls tid) s.proc.info with ⟨tls, _ | i⟩
      · rfl
      · exact absurd (enterProbe_running he) (hd.idle i)
    refine ⟨_, rfl, hd.exited, hd.idle, fun t => ?_, hd.files⟩
    simp only [hnone, Option.map_none]
    by_cases ht : t = tid
    · rw [ht, Function.update_self]
    · rw [Function.update_of_ne ht]
      exact hd.busy t
  | event tid =>
    obtain ⟨b, hb⟩ := hen
    rw [hd.busy] at hb
    cases hb
  | exit =>
    obtain ⟨hslot, hfiles⟩ := lprobeExit_idle hd.idle
    refine ⟨_, rfl, rfl, fun i => ?_, hd.busy, hfiles.trans hd.files⟩
    simp only [hslot]
    exact hd.idle i

/-- `lprobe_exit` when no call is in progress. -/
theorem PipeOk.exit {h : List PipeStep} {s : PipeSt} (hp : PipeOk h s)
    (hen : pipeMachine.Enabled s .exit) :
    ∃ s', pipeMachine.step s .exit = .ok s' ∧ Done s'.proc.os.files s' ∧
      ∀ i l, (s.proc.slot i).state = .running → (s.proc.slot i).evlist = some l →
        s'.proc.os.files (outfile (s.proc.slot i).tid) =
          recordBytes (recordsOf l.entries (callsOf (s.proc.slot i).tid h)) := by
  obtain ⟨hidle, hwritten⟩ := lprobeExit_spec hp.table hp.apart hp.file hp.isError hp.flog
  refine ⟨_, rfl, ⟨rfl, hidle, hen, rfl⟩, fun i l hrun hl => ?_⟩
  obtain ⟨l', f, hrs⟩ := hp.table.running i hrun
  obtain rfl : l = l' := Option.some.inj (hl.symm.trans hrs.evlist)
  have hstream := hp.stream i l f hrs
  rw [hen, pending, recordBytes_nil, List.append_nil] at hstream
  exact (hwritten i hrun).trans hstream

/-- What reaches a file, whatever the function numbers. -/
theorem pipeline_files {pid : Int} {tls : Tls} {g : Proc} (hpid : ValidTid pid)
    (hinit : InitOk pid tls g)
    (hdist : ∀ i ∈ g.inits, ∀ j ∈ g.inits, (g.slot i).tid = (g.slot j).tid → i = j)
    {pre post : List PipeStep} (hpre : ∀ a ∈ pre, a ≠ .exit)
    (hl : pipeMachine.Legal (.start pid tls g) (pre ++ .exit :: post)) :
    ∃ s s', pipeMachine.run (.start pid tls g) pre = .ok s ∧
      pipeMachine.run (.start pid tls g) (pre ++ .exit :: post) = .ok s' ∧
      ∀ i l, (s.proc.slot i).state = .running → (s.proc.slot i).evlist = some l →
        s'.proc.os.files (outfile (s.proc.slot i).tid) =
          recordBytes (recordsOf l.entries (callsOf (s.proc.slot i).tid pre)) := by
  have h0 := PipeOk.start hinit hpid hdist
  obtain ⟨hlpre, hlpost⟩ := hl.append
  obtain ⟨s, hs, hp⟩ := hlpre.run_ok_on (fun _ _ _ hP ha hen => pipeOk_step hP ha hen) hpre h0
  obtain ⟨hexit, hlpost⟩ := hlpost s hs
  obtain ⟨s1, hs1, hdone, hfile⟩ := hp.exit hexit
  obtain ⟨s', hs', hd⟩ := (hlpost s1 hs1).run_ok (P := fun _ => Done s1.proc.os.files)
    (fun _ _ _ hP hen => hP.step hen) hdone
  refine ⟨s, s', hs, ?_, fun i l hrun hlist => ?_⟩
  · rw [Machine.run_append_ok hs, Machine.run_cons_ok hs1, hs']
  · rw [hd.files]
    exact hfile i l hrun hlist

end Lprofile.Probe
