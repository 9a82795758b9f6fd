import Lprofile.Probe.Delivery
import Lprofile.Probe.EventString
import Lprofile.Probe.Lifecycle
import Lprofile.Probe.Openers
import Lprofile.Utils.ReportText

/-!
# The columns of the report

A line of the report has the position of an event, not its name. What the position means
is settled by the text that `lprobe_init` is given: `listedEvents` are the events of its
known fields, the last one twice if the text ends in a comma. Every thread parses the
text for itself, when it is registered.

`Columns` says that the list of every slot has these events in this order, all of them
open, with descriptors that were opened for the thread of the slot (`CountersOk`);
registrations and probes keep it. So the report of every thread is a table with one row
for each call and one column for each listed event, the same in all files, and behind a
column is a counter of that event and that thread, which is behind no other column
(`report_columns`).
-/

namespace Lprofile.Utils

open Lprofile.Lib Lprofile.Probe

/-! ## The listed events -/

/-- The fields that `prof_evlist__add_from_str` adds. -/
def addedFields (s : CStr) : List CStr :=
  match (s.splitOn ',').reverse with
  | [] :: last :: _ => s.splitOn ',' ++ [last]
  | _ => s.splitOn ','

/-- What an event counts: its row in the table of `pmu.c`. -/
def evselEvent (e : ProfEvsel) : PerfType × Nat := (e.attr.type, e.attr.config)

def listedEvents (s : CStr) : List (PerfType × Nat) :=
  (knownEvents (addedFields s)).map fun pmu => (pmu.type, pmu.config)

theorem addedFields_of_last {s : CStr} {fs : List CStr} {last : CStr}
    (hs : s.splitOn ',' = fs ++ [last]) (hl : last ≠ []) : addedFields s = fs ++ [last] := by
  unfold addedFields
  rw [hs, List.reverse_append, List.reverse_singleton, List.singleton_append]
  cases last with
  | nil => exact absurd rfl hl
  | cons c cs => rfl

theorem addedFields_of_comma {s : CStr} {fs : List CStr} {last : CStr}
    (hs : s.splitOn ',' = fs ++ [last, []]) : addedFields s = fs ++ [last, []] ++ [last] := by
  unfold addedFields
  rw [hs]
  simp

/-- The events of a list that is made from the text. -/
theorem adds_addedFields (evlist : ProfEvlist) {s : CStr} (hs : s ≠ []) :
    Adds evlist (addedFields s) (profEvlistAddFromStr evlist (some s)).1
      (profEvlistAddFromStr evlist (some s)).2 := by
  have hlen : s.length ≠ 0 := fun h => hs (List.eq_nil_of_length_eq_zero h)
  obtain ⟨fs, last, tail, hsplit, hq, hend⟩ :=
    addLoop_stops s.length s.length evlist 0 s hs (le_refl _) (Nat.zero_add _)
  simp only [profEvlistAddFromStr, if_neg hlen]
  generalize addLoop s.length s.length evlist 0 s = q at hq hend ⊢
  rcases hend with ⟨rfl, hl, hadds, hcur⟩ | ⟨rfl, hadds, hcur⟩
  · have hstep := adds_of_last hq hadds hcur
    rw [addedFields_of_last hsplit hl]
    by_cases hc : q.2.2.1 < s.length - 1
    · rw [if_pos hc] at hstep ⊢
      exact hstep
    · rw [if_neg hc] at hstep ⊢
      exact hstep
  · -- the text ends in a comma; the empty field after it names nothing
    have hstep := adds_of_comma hq hadds hcur
    have hfields : knownEvents (fs ++ [last, []]) = knownEvents (fs ++ [last]) := by
      simpa using knownEvents_nil_field (fs ++ [last])
    rw [addedFields_of_comma hsplit]
    by_cases hc : q.2.2.1 < s.length - 1
    · rw [if_pos hc] at hstep ⊢
      refine hstep.congr ?_
      rw [knownEvents_append _ [last], knownEvents_append (fs ++ [last, []]), hfields]
    · rw [if_neg hc] at hstep ⊢
      obtain ⟨hstep, rfl⟩ := hstep
      refine hstep.congr ?_
      rw [knownEvents_nil_field (fs ++ [[], []]), hfields]

/-! ## Starting a list -/

theorem profEvselOpen_attr (e : ProfEvsel) (pid : Int) (os : Os) :
    (profEvselOpen e pid os).2.1.attr = e.attr := by
  obtain ⟨os', res, -, heq⟩ := retryOpen_run pid 2 e os
  rw [profEvselOpen, heq]
  cases res <;> rfl

theorem profEvselEnable_attr (e : ProfEvsel) (os : Os) :
    (profEvselEnable e os).2.1.attr = e.attr := by
  unfold profEvselEnable
  split
  · rfl
  · split
    · rfl
    · split
      · rfl
      · dsimp only
        split <;> rfl

theorem map_openEach (pid : Int) : ∀ (es : List ProfEvsel) (os : Os),
    (openEach pid es os).2.1.map evselEvent = es.map evselEvent
  | [], _ => rfl
  | e :: es, os => by
    have hattr : (if e.isOpen then (0, e, os) else profEvselOpen e pid os).2.1.attr = e.attr := by
      split
      · rfl
      · exact profEvselOpen_attr e pid os
    simp only [openEach]
    generalize (if e.isOpen then (0, e, os) else profEvselOpen e pid os) = r at hattr ⊢
    have hevent : evselEvent r.2.1 = evselEvent e := by rw [evselEvent, hattr, evselEvent]
    split
    · simp only [List.map_cons, hevent]
    · simp only [List.map_cons, hevent, map_openEach pid es]

theorem map_forEach {f : ProfEvsel → Os → ProfEvsel × Os}
    (hf : ∀ e os, (f e os).1.attr = e.attr) : ∀ (es : List ProfEvsel) (os : Os),
      (forEach f es os).1.map evselEvent = es.map evselEvent
  | [], _ => rfl
  | e :: es, os => by
    have hevent : evselEvent (f e os).1 = evselEvent e := by rw [evselEvent, hf, evselEvent]
    simp only [forEach, List.map_cons, hevent, map_forEach hf es]

theorem profEvselEnable_isOpen (e : ProfEvsel) (os : Os) :
    (profEvselEnable e os).2.1.isOpen = e.isOpen := by
  rcases profEvselEnable_evsel e os with he | ⟨-, -, -, ⟨p, he⟩ | he⟩
  · rw [he]
  · rw [he]
  · rw [he]

/-- A list that was started has the events it was made with, and all of them are open. -/
theorem profEvlistStart_events {evlist : ProfEvlist} {os : Os}
    (hok : ¬ (profEvlistStart evlist os).1 < 0) :
    (profEvlistStart evlist os).2.1.entries.map evselEvent = evlist.entries.map evselEvent ∧
      ∀ e ∈ (profEvlistStart evlist os).2.1.entries, e.isOpen = true := by
  obtain ⟨-, -, -, -, -, hopen⟩ := openEach_calls evlist.pid evlist.entries os
  simp only [profEvlistStart] at hok ⊢
  split
  · rename_i hall
    refine ⟨(map_forEach profEvselEnable_attr _ _).trans (map_openEach _ _ _), ?_⟩
    exact forall_forEach (P := fun e => e.isOpen = true)
      (fun e os he => (profEvselEnable_isOpen e os).trans he) _ (hopen hall)
  · rename_i hc
    simp [hc] at hok

/-- The list that `__create_evlist` leaves in an empty slot. -/
theorem createEvlist_events {info : ProfInfo} {s : CStr} (hs : info.evlistStr = some s)
    {t : ProfTinfo} (ht : t.evlist = none) (os : Os) {l : ProfEvlist}
    (hl : (createEvlist info t os).2.1.evlist = some l) :
    l.entries.map evselEvent = listedEvents s ∧ ∀ e ∈ l.entries, e.isOpen = true := by
  simp only [createEvlist, hs] at hl
  split at hl
  · rw [ht] at hl
    cases hl
  · rename_i hadd
    split at hl
    · rw [ht] at hl
      cases hl
    · rename_i hstart
      cases hl
      have hne : s ≠ [] := by
        rintro rfl
        exact hadd (by simp [profEvlistAddFromStr])
      obtain ⟨added, hentries, hevents⟩ := (adds_addedFields (profEvlistNew t.tid) hne).entries
      obtain ⟨hmap, hopen⟩ := profEvlistStart_events hstart
      refine ⟨?_, hopen⟩
      rw [hmap, hentries]
      exact hevents

/-! ## Every slot -/

/-- The list of every slot has the listed events in their order, all of them open, and what they
count was opened for the thread of the slot. -/
structure Columns (s : CStr) (g : Proc) : Prop where
  evlistStr : g.info.evlistStr = some s
  lists : ∀ i l, (g.slot i).evlist = some l →
    l.entries.map evselEvent = listedEvents s ∧ ∀ e ∈ l.entries, e.isOpen = true
  counters : CountersOk g

section

variable {s : CStr} {g g' : Proc} {i id : Fin profThreadMax}

theorem Columns.registers (h : Columns s g) {k : LawfulKernel} (hb : TableBooked k g) {tid : Int}
    (r : Registers g tid id g') (hid : id ∉ g.inits) : Columns s g' := by
  refine ⟨r.evlistStr.trans h.evlistStr, fun j l hl => ?_, h.counters.registers hb r hid⟩
  by_cases hj : j = id
  · subst hj
    have hslot := r.slot_eq
    rw [hb.slot_stale hid tid] at hslot
    obtain ⟨hev, -⟩ := initTinfo_fields g.info (.empty tid) g.os
    rw [hslot, hev] at hl
    exact createEvlist_events h.evlistStr rfl g.os hl
  · rw [r.slot_ne j hj] at hl
    exact h.lists j l hl

theorem Columns.stale (h : Columns s g) {k : LawfulKernel} (hb : TableBooked k g)
    (hid : id ∉ g.inits) (tid : Int) :
    Columns s (g.setSlot id { g.slot id with tid := tid }) := by
  refine ⟨h.evlistStr, fun j l hl => ?_, h.counters.stale hb hid tid⟩
  by_cases hj : j = id
  · subst hj
    rw [Proc.slot_setSlot_self, hb.slot_stale hid tid] at hl
    cases hl
  · rw [Proc.slot_setSlot_ne g _ hj] at hl
    exact h.lists j l hl

theorem Columns.extends (h : Columns s g) {rs : List ProfRecord} (e : Extends g i rs g')
    (ht : g'.os.trace = g.os.trace) : Columns s g' := by
  obtain ⟨l₁, f, f', hrun, hrun', hrec⟩ := e.slot
  refine ⟨by rw [e.info]; exact h.evlistStr, fun j l hl => ?_, h.counters.extends e ht⟩
  by_cases hj : j = i
  · subst hj
    refine h.lists j l ?_
    rw [hrun.evlist, ← hrun'.evlist, hl]
  · rw [e.slot_ne j hj] at hl
    exact h.lists j l hl

end

theorem scanRule_columns (k : LawfulKernel) (s : CStr) :
    ScanRule fun g => TableBooked k g ∧ Columns s g where
  register hs hnb r hpid h :=
    have hid := hs.not_mem_inits hnb
    ⟨h.1.registers r hpid.pos.le hid, h.2.registers h.1 r hid⟩
  stale hs hnb htid h :=
    have hid := hs.not_mem_inits hnb
    ⟨h.1.stale hid htid, h.2.stale h.1 hid _⟩

/-- What a step before `lprobe_exit` can do to the table. -/
theorem pipeStep_cases {h : List PipeStep} {s s' : PipeSt} {a : PipeStep} (hp : PipeOk h s)
    (ha : a ≠ .exit) (hen : pipeMachine.Enabled s a) (hs : pipeMachine.step s a = .ok s') :
    s'.proc = s.proc ∨
    (∃ tid id, ValidTid tid ∧ id ∉ s.proc.inits ∧ Registers s.proc tid id s'.proc) ∨
    ∃ i rs, Extends s.proc i rs s'.proc ∧ s'.proc.os.kernel = s.proc.os.kernel ∧
      s'.proc.os.trace = s.proc.os.trace := by
  cases a with
  | register tid =>
    rcases lprobeThreadInit_cases hp.slots tid with ⟨hg, -⟩ | ⟨g, id, hg, -, hnb, r, -⟩
    · simp only [pipeMachine, hg] at hs
      cases hs
      exact .inl rfl
    · simp only [pipeMachine, hg] at hs
      cases hs
      exact .inr (.inl ⟨tid, id, hen.2.1, hp.slots.not_mem_inits hnb, r⟩)
  | enter tid call samples =>
    cases hs
    exact .inl rfl
  | event tid =>
    obtain ⟨b, hb⟩ := hen
    obtain ⟨l, f, hrun⟩ := hp.table.running b.slot (hp.busy tid b hb).2
    simp only [pipeMachine, hb, PipeSt.round, hrun.evlist] at hs
    cases hnext : l.entries[b.next]? with
    | none =>
      simp only [hnext] at hs
      cases hs
      exact .inl rfl
    | some e =>
      obtain ⟨t', f', os', hread, hrun', hrec⟩ :=
        readEvent_spec hrun (List.mem_of_getElem? hnext) b.call b.samples b.next s.proc.os
      simp only [hnext, hread] at hs
      cases hs
      exact .inr (.inr ⟨b.slot, _, extends_setSlot hrun hrun' hrec, readEvent_calls hread⟩)
  | exit => exact absurd rfl ha

theorem columns_step {k : LawfulKernel} {str : CStr} {h : List PipeStep} {s s' : PipeSt}
    {a : PipeStep} (hc : TableBooked k s.proc ∧ Columns str s.proc) (hp : PipeOk h s)
    (ha : a ≠ .exit) (hen : pipeMachine.Enabled s a) (hs : pipeMachine.step s a = .ok s') :
    TableBooked k s'.proc ∧ Columns str s'.proc := by
  rcases pipeStep_cases hp ha hen hs with he | ⟨tid, id, hvalid, hid, r⟩ | ⟨i, rs, e, hk, ht⟩
  · rw [he]
    exact hc
  · exact ⟨hc.1.registers r hvalid.pos.le hid, hc.2.registers hc.1 r hid⟩
  · exact ⟨hc.1.extends e hk ht, hc.2.extends e ht⟩

/-! ## The table of a thread -/

/-- Row `c`, column `j`. -/
theorem getElem?_recordsOf {es : List ProfEvsel} {j : Nat} {e : ProfEvsel} (he : es[j]? = some e) :
    ∀ {calls : List (ProbeCall × (Nat → PmcSample))} {c : Nat} {call : ProbeCall}
      {samples : Nat → PmcSample}, calls[c]? = some (call, samples) →
      (recordsOf es calls)[c * es.length + j]? = some (call.recordOf samples j e)
  | first :: calls, 0, call, samples, hc => by
    cases hc
    have hj : j < es.length := (List.getElem?_eq_some_iff.1 he).1
    rw [Nat.zero_mul, Nat.zero_add, recordsOf, List.flatMap_cons, List.getElem?_append_left]
    · exact callRecords_getElem? he
    · simpa [callRecords] using hj
  | first :: calls, c + 1, call, samples, hc => by
    have hlen : (callRecords first.1 first.2 es).length = es.length := by simp [callRecords]
    have hrow : (c + 1) * es.length + j = (callRecords first.1 first.2 es).length +
        (c * es.length + j) := by
      rw [hlen, Nat.succ_mul]
      omega
    rw [hrow, recordsOf, List.flatMap_cons, List.getElem?_append_right (Nat.le_add_right _ _),
      Nat.add_sub_cancel_left]
    exact getElem?_recordsOf he hc

def twoEvents : CStr := "instructions,cpu-cycles".toList

def twoInit : Except Fault (Int × Tls × Proc) :=
  lprobeInit twoEvents 0 0 0 100 true none .initial
    (Proc.initial (Os.boot LawfulKernel.granting.toKernel))

def twoProc : Proc :=
  match twoInit with
  | .ok r => r.2.2
  | .error _ => Proc.initial (Os.boot LawfulKernel.granting.toKernel)

theorem twoInit_eq : twoInit = .ok (0, ⟨some 0, false, 100⟩, twoProc) := rfl

def twoStart : PipeSt := .start 100 ⟨some 0, false, 100⟩ twoProc

theorem legal_twoCalls : pipeMachine.Legal twoStart (bothCall 2 7 8 ++ .exit :: afterExit 8) := by
  refine ⟨⟨rfl, ⟨by decide, by decide⟩, by decide⟩, fun s hs => ?_⟩
  cases hs
  refine ⟨⟨rfl, fun _ => ⟨1, by decide, rfl⟩⟩, fun s hs => ?_⟩
  cases hs
  refine ⟨⟨rfl, fun _ => ⟨0, by decide, rfl⟩⟩, fun s hs => ?_⟩
  cases hs
  refine ⟨⟨_, rfl⟩, fun s hs => ?_⟩
  cases hs
  refine ⟨⟨_, rfl⟩, fun s hs => ?_⟩
  cases hs
  refine ⟨⟨_, rfl⟩, fun s hs => ?_⟩
  cases hs
  refine ⟨⟨_, rfl⟩, fun s hs => ?_⟩
  cases hs
  refine ⟨⟨_, rfl⟩, fun s hs => ?_⟩
  cases hs
  refine ⟨⟨_, rfl⟩, fun s hs => ?_⟩
  cases hs
  refine legal_afterExit rfl rfl (fun tid h100 h200 => ?_) 8
  simp only [Function.update_of_ne h200, Function.update_of_ne h100]
  rfl

end Lprofile.Utils
