import Lprofile.Probe.Creation
import Lprofile.Probe.Pipeline

/-!
# `lprobe_exit` while probes run

`lprobe_exit` is called when the process ends, by one thread, and nothing keeps the others
from their probes. `exitMachine` is the process from then on: the loop of `lprobe_exit`
destroys one slot after the other (`.exit`), and between two of its rounds the calls of
`__read_count` in progress go on, one event at a time, and new ones begin.

A call that goes on in a slot that is destroyed reads through the NULL list of the slot,
or the next pointer of a selector that is freed. Nothing else goes wrong
(`exit_while_probing`), and a file has the records its thread had made when the slot was
destroyed, the call in progress up to its last event.

A thread that is created meanwhile would take a mutex that is destroyed; registrations are
left out.
-/

namespace Lprofile.Probe

open Lprofile.Lib

/-! ## The process during exit -/

inductive RaceFault where
  | fault (f : Fault)
  /-- `node.next` of a selector that is freed -/
  | freedEvsel
  deriving DecidableEq

/-- `todo` are the slots the loop of `lprobe_exit` has not come to. -/
structure ExitSt where
  pipe : PipeSt
  todo : List (Fin profThreadMax)

namespace ExitSt

abbrev slot (s : ExitSt) (i : Fin profThreadMax) : ProfTinfo := s.pipe.proc.slot i

/-- `lprobe_exit` up to its loop. -/
def start (s : PipeSt) : ExitSt :=
  if s.proc.info.isError then ⟨s, []⟩
  else
    match s.proc.info.flog with
    | none => ⟨s, List.finRange profThreadMax⟩
    | some f => ⟨{ s with proc := { s.proc with
        info := { s.proc.info with flog := none }, os := s.proc.os.fclose f } },
        List.finRange profThreadMax⟩

/-- One round of the loop of `__read_count`. It starts at the list of the slot, and comes to the
next event through the selector before it. -/
def round (s : ExitSt) (tid : Int) (b : CallSt) : Except RaceFault ExitSt :=
  match (s.slot b.slot).evlist with
  | none => .error (if b.next = 0 then .fault .nullEvlist else .freedEvsel)
  | some _ =>
    match s.pipe.round tid b with
    | .error f => .error (.fault f)
    | .ok p => .ok { s with pipe := p }

/-- A probe up to the loop of `__read_count`. -/
def enter (s : ExitSt) (tid : Int) (call : ProbeCall) (samples : Nat → PmcSample) : ExitSt :=
  let r := enterProbe tid (s.pipe.tls tid) s.pipe.proc.info
  { s with pipe := { s.pipe with
    tls := Function.update s.pipe.tls tid r.1
    busy := Function.update s.pipe.busy tid (r.2.map fun i => ⟨call, samples, i, 0⟩) } }

end ExitSt

/-- `.exit` is one round of the loop of `lprobe_exit`. -/
def exitMachine : Machine ExitSt PipeStep RaceFault where
  Enabled s
    | .register _ => False
    | .enter tid _ _ => s.pipe.busy tid = none ∧ ValidTid tid
    | .event tid => ∃ b, s.pipe.busy tid = some b
    | .exit => s.todo ≠ []
  step s
    | .register _ => .ok s
    | .enter tid call samples => .ok (s.enter tid call samples)
    | .event tid =>
      match s.pipe.busy tid with
      | none => .ok s
      | some b => s.round tid b
    | .exit =>
      match s.todo with
      | [] => .ok s
      | i :: todo => .ok ⟨{ s.pipe with proc := exitSlot s.pipe.proc i }, todo⟩

theorem exitMachine_run_loop (p : PipeSt) : ∀ (g : Proc) (todo : List (Fin profThreadMax)),
    exitMachine.run ⟨{ p with proc := g }, todo⟩ (List.replicate todo.length .exit) =
      .ok ⟨{ p with proc := todo.foldl exitSlot g }, []⟩
  | _, [] => rfl
  | g, i :: todo => by
    rw [List.length_cons, List.replicate_succ, List.foldl_cons]
    exact (Machine.run_cons_ok rfl).trans (exitMachine_run_loop p (exitSlot g i) todo)

/-- **With nothing in between**, the rounds are `lprobe_exit`. -/
theorem exitMachine_run_exit (s : PipeSt) :
    exitMachine.run (.start s) (List.replicate (ExitSt.start s).todo.length .exit) =
      .ok ⟨{ s with proc := lprobeExit s.proc }, []⟩ := by
  unfold ExitSt.start lprobeExit
  cases s.proc.info.isError with
  | true => rfl
  | false =>
    simp only [Bool.false_eq_true, ↓reduceIte]
    cases s.proc.info.flog with
    | none => exact exitMachine_run_loop s s.proc _
    | some f => exact exitMachine_run_loop s _ _

/-- A call goes on only in a slot that is not destroyed. -/
def GoesOnLive (s : ExitSt) (a : PipeStep) : Prop :=
  ∀ tid b, a = .event tid → s.pipe.busy tid = some b → (s.slot b.slot).state = .running

/-! ## The invariant -/

/-- `s₀` is the state at the call of `lprobe_exit`, and `h` the history. -/
structure RaceOk (s₀ : PipeSt) (h : List PipeStep) (s : ExitSt) : Prop where
  tid : ∀ i, (s.slot i).tid = (s₀.proc.slot i).tid ∨ (s.slot i).tid = -1
  live : ∀ i, (s.slot i).state = .running → (s₀.proc.slot i).state = .running ∧
    (s.slot i).tid = (s₀.proc.slot i).tid ∧ (s.slot i).evlist = (s₀.proc.slot i).evlist
  nodup : s.todo.Nodup
  todo : ∀ i ∈ s.todo, (s₀.proc.slot i).state = .running → (s.slot i).state = .running
  gone : ∀ i, (s₀.proc.slot i).state = .running → (s.slot i).state ≠ .running →
    (s.slot i).evlist = none
  running : ∀ i, (s.slot i).state = .running → ∃ l f, RunningSlot (s.slot i) l f
  file : ∀ i, FileOk s.pipe.proc i
  tls : ∀ t j, (s.pipe.tls t).threadinfo = some j →
    j ∈ s₀.proc.inits ∧ (s₀.proc.slot j).tid = t
  heeds : ∀ i, (s.slot i).state = .running → (s.pipe.tls (s.slot i).tid).isIgnore = false
  busy : ∀ t b, s.pipe.busy t = some b →
    (s₀.proc.slot b.slot).state = .running ∧ (s₀.proc.slot b.slot).tid = t
  stream : ∀ i l f, RunningSlot (s.slot i) l f →
    (s.slot i).stream ++ recordBytes (pending l.entries (s.pipe.busy (s.slot i).tid)) =
      recordBytes (recordsOf l.entries (callsOf (s.slot i).tid h))

theorem PipeOk.exitStart {h : List PipeStep} {s : PipeSt} (hp : PipeOk h s) :
    ExitSt.start s = ⟨s, List.finRange profThreadMax⟩ := by
  simp only [ExitSt.start, hp.isError, hp.flog, Bool.false_eq_true, ↓reduceIte]

theorem PipeOk.raceOk {h : List PipeStep} {s : PipeSt} (hp : PipeOk h s) :
    RaceOk s h ⟨s, List.finRange profThreadMax⟩ where
  tid _ := .inl rfl
  live _ hi := ⟨hi, rfl, rfl⟩
  nodup := List.nodup_finRange _
  todo _ _ hi := hi
  gone _ hi hn := absurd hi hn
  running := hp.table.running
  file := hp.file
  tls t := (hp.tls t).2
  heeds _ _ := (hp.tls _).1
  busy t b hb := (hp.busy t b hb).symm
  stream := hp.stream

theorem callsOf_exit (t : Int) (h : List PipeStep) : callsOf t (h ++ [.exit]) = callsOf t h :=
  (callsOf_append t h _).trans (List.append_nil _)

section

variable {pre h : List PipeStep} {s₀ : PipeSt} {s : ExitSt} (hp : PipeOk pre s₀)
  (hr : RaceOk s₀ h s)
include hp hr

theorem RaceOk.apart : Apart s.pipe.proc where
  tid i hi := by
    obtain ⟨hi₀, htid, -⟩ := hr.live i hi
    rw [htid]
    exact hp.apart.tid i hi₀
  file i j hi hj hne := by
    obtain ⟨hi₀, htid, -⟩ := hr.live i hi
    obtain ⟨hj₀, htid', -⟩ := hr.live j hj
    rw [htid, htid']
    exact hp.apart.file i j hi₀ hj₀ hne

/-- The slot of a call in progress, if it is live, is the only one with its tid. -/
theorem RaceOk.eq_of_busy {tid : Int} {b : CallSt} (hb : s.pipe.busy tid = some b)
    {i : Fin profThreadMax} (hi : (s.slot i).state = .running) (htid : (s.slot i).tid = tid) :
    i = b.slot := by
  obtain ⟨hb₀, htid₀⟩ := hr.busy tid b hb
  obtain ⟨hi₀, htid', -⟩ := hr.live i hi
  exact hp.eq_of_tid hi₀ (hp.table.mem_inits_of_running hb₀)
    (htid'.symm.trans (htid.trans htid₀.symm))

/-! ## New calls -/

/-- What a thread looks up during exit: a live slot of its own, or nothing. -/
theorem RaceOk.enterProbe {tid : Int} (hv : ValidTid tid) :
    let r := enterProbe tid (s.pipe.tls tid) s.pipe.proc.info
    (∀ j, r.1.threadinfo = some j → j ∈ s₀.proc.inits ∧ (s₀.proc.slot j).tid = tid) ∧
      (∀ i, (s.slot i).state = .running → (s.slot i).tid = tid →
        r.1.isIgnore = false ∧ r.2 = some i) ∧
      ∀ i, r.2 = some i → (s.slot i).state = .running ∧ (s₀.proc.slot i).tid = tid := by
  intro r
  rcases enterProbe_cases tid (s.pipe.tls tid) s.pipe.proc.info with
    ⟨hig, he⟩ | ⟨-, hti, hf, he⟩ | ⟨j, tls', -, hig', hti', hfrom, he⟩
  · simp only [r, he]
    refine ⟨hr.tls tid, fun i hi htid => ?_, fun i h => (by cases h)⟩
    have hheeds := hr.heeds i hi
    rw [htid, hig] at hheeds
    cases hheeds
  · simp only [r, he]
    refine ⟨fun j hj => ?_, fun i _ htid => ?_, fun i h => (by cases h)⟩
    · rw [hti] at hj
      cases hj
    · exact absurd htid (findTinfo_eq_none.1 hf i)
  · have hj : j ∈ s₀.proc.inits ∧ (s₀.proc.slot j).tid = tid := by
      rcases hfrom with hti | ⟨-, hf⟩
      · exact hr.tls tid j hti
      · have hjt : (s.slot j).tid = tid := (findTinfo_eq_some.1 hf).1
        have hpos := hv.pos
        have htid₀ : (s₀.proc.slot j).tid = tid := by
          rcases hr.tid j with h | h
          · rw [← h, hjt]
          · omega
        exact ⟨hp.table.mem_inits (by rwa [htid₀]), htid₀⟩
    simp only [r, he]
    refine ⟨fun j' hj' => ?_, fun i hi htid => ⟨hig', ?_⟩, fun i h => ?_⟩
    · rw [hti'] at hj'
      cases hj'
      exact hj
    · obtain ⟨hi₀, htid', -⟩ := hr.live i hi
      obtain rfl : i = j := hp.eq_of_tid hi₀ hj.1 (htid'.symm.trans (htid.trans hj.2.symm))
      exact if_pos hi
    · split at h
      · rename_i hrun
        cases h
        exact ⟨hrun, hj.2⟩
      · cases h

theorem RaceOk.enter {tid : Int} (hv : ValidTid tid) (hidle : s.pipe.busy tid = none)
    (call : ProbeCall) (samples : Nat → PmcSample) :
    RaceOk s₀ (h ++ [.enter tid call samples]) (s.enter tid call samples) := by
  obtain ⟨htls, hown, hfound⟩ := hr.enterProbe hp hv
  refine ⟨hr.tid, hr.live, hr.nodup, hr.todo, hr.gone, hr.running, hr.file, fun t => ?_,
    fun i hi => ?_, fun t b hb => ?_, fun i l f hrun => ?_⟩
  · by_cases ht : t = tid
    · subst ht
      simp only [ExitSt.enter, Function.update_self]
      exact htls
    · simp only [ExitSt.enter, Function.update_of_ne ht]
      exact hr.tls t
  · change (Function.update s.pipe.tls tid _ (s.slot i).tid).isIgnore = false
    by_cases ht : (s.slot i).tid = tid
    · rw [ht, Function.update_self]
      exact (hown i hi ht).1
    · rw [Function.update_of_ne ht]
      exact hr.heeds i hi
  · by_cases ht : t = tid
    · subst ht
      simp only [ExitSt.enter, Function.update_self, Option.map_eq_some_iff] at hb
      obtain ⟨i, hi, rfl⟩ := hb
      obtain ⟨hrun, htid⟩ := hfound i hi
      exact ⟨(hr.live i hrun).1, htid⟩
    · simp only [ExitSt.enter, Function.update_of_ne ht] at hb
      exact hr.busy t b hb
  · have hold := hr.stream i l f hrun
    change (s.slot i).stream ++ recordBytes (pending l.entries
      (Function.update s.pipe.busy tid _ (s.slot i).tid)) = recordBytes (recordsOf l.entries
        (callsOf (s.slot i).tid _))
    by_cases ht : (s.slot i).tid = tid
    · rw [ht, hidle] at hold
      have hdone : (s.slot i).stream = recordBytes (recordsOf l.entries (callsOf tid h)) := by
        simpa [pending] using hold
      rw [ht, Function.update_self, (hown i hrun.state ht).2, callsOf_enter_self, recordsOf_append,
        recordBytes_append, ← hdone]
      simp [pending, recordsOf]
    · rw [Function.update_of_ne ht, callsOf_enter_of_ne ht]
      exact hold

/-! ## Calls in progress -/

/-- The call returns after its last event. -/
theorem RaceOk.return {tid : Int} {b : CallSt} {l : ProfEvlist} {f : OutFile}
    (hb : s.pipe.busy tid = some b) (hrun : RunningSlot (s.slot b.slot) l f)
    (hnext : l.entries[b.next]? = none) :
    RaceOk s₀ (h ++ [.event tid])
      { s with pipe := { s.pipe with busy := Function.update s.pipe.busy tid none } } := by
  refine { hr with busy := fun t b' hb' => ?_, stream := fun i l' f' hrun' => ?_ }
  · by_cases ht : t = tid
    · subst ht
      simp only [Function.update_self] at hb'
      cases hb'
    · simp only [Function.update_of_ne ht] at hb'
      exact hr.busy t b' hb'
  · have hold := hr.stream i l' f' hrun'
    change (s.slot i).stream ++ recordBytes (pending l'.entries
      (Function.update s.pipe.busy tid none (s.slot i).tid)) = _
    rw [callsOf_event]
    by_cases ht : (s.slot i).tid = tid
    · obtain rfl := hr.eq_of_busy hp hb hrun'.state ht
      obtain ⟨rfl, rfl⟩ := hrun.unique hrun'
      rw [ht, hb, pending_end hnext] at hold
      rw [ht, Function.update_self, ← hold]
      rfl
    · rw [Function.update_of_ne ht]
      exact hold

/-- A live slot that a call records in has a file of its own. -/
theorem RaceOk.fileOk_extends {i : Fin profThreadMax} {rs : List ProfRecord} {g : Proc}
    (hext : Extends s.pipe.proc i rs g) (k : Fin profThreadMax) : FileOk g k := by
  intro l' f' hrun'
  obtain ⟨l, f, f₁, hrun, hrun₁, hrec⟩ := hext.slot
  by_cases hk : k = i
  · subst hk
    obtain ⟨-, rfl⟩ := hrun₁.unique hrun'
    exact hrec.own (hr.file _ l f hrun)
  · rw [hext.slot_ne k hk] at hrun'
    rw [← hr.file k l' f' hrun']
    refine hrec.others _ ?_
    rw [hrun'.path, hrun.path]
    exact (hr.apart hp).file k i hrun'.state hrun.state hk

/-- The call has recorded the event `next`. -/
theorem RaceOk.recorded {tid : Int} {b : CallSt} {l : ProfEvlist} {f : OutFile}
    (hb : s.pipe.busy tid = some b) (hrun : RunningSlot (s.slot b.slot) l f) {e : ProfEvsel}
    (hnext : l.entries[b.next]? = some e) {g : Proc}
    (hext : Extends s.pipe.proc b.slot [b.call.recordOf b.samples b.next e] g) :
    RaceOk s₀ (h ++ [.event tid]) { s with pipe := { s.pipe with
      proc := g
      busy := Function.update s.pipe.busy tid (some { b with next := b.next + 1 }) } } := by
  obtain ⟨l₁, f₁, f', hrun₁, hrun', hrec⟩ := hext.slot
  obtain ⟨rfl, rfl⟩ := hrun.unique hrun₁
  have hstate : ∀ i, (g.slot i).state = (s.slot i).state := by
    intro i
    by_cases hi : i = b.slot
    · rw [hi, hrun'.state, hrun.state]
    · rw [hext.slot_ne i hi]
  have hlist : ∀ i, (g.slot i).evlist = (s.slot i).evlist := by
    intro i
    by_cases hi : i = b.slot
    · rw [hi, hrun'.evlist, hrun.evlist]
    · rw [hext.slot_ne i hi]
  refine ⟨fun i => ?_, fun i hi => ?_, hr.nodup, fun i hi hi₀ => ?_, fun i hi₀ hi => ?_,
    fun i hi => ?_, hr.fileOk_extends hp hext, hr.tls, fun i hi => ?_, fun t b' hb' => ?_,
    fun i l' f₂ hrun₂ => ?_⟩
  · change (g.slot i).tid = _ ∨ (g.slot i).tid = -1
    rw [hext.tid]
    exact hr.tid i
  · change (g.slot i).state = .running at hi
    change _ ∧ (g.slot i).tid = _ ∧ (g.slot i).evlist = _
    rw [hext.tid, hlist]
    exact hr.live i (hstate i ▸ hi)
  · exact (hstate i).trans (hr.todo i hi hi₀)
  · exact (hlist i).trans (hr.gone i hi₀ (hstate i ▸ hi))
  · change (g.slot i).state = .running at hi
    by_cases hib : i = b.slot
    · subst hib
      exact ⟨l, f', hrun'⟩
    · change ∃ l f, RunningSlot (g.slot i) l f
      rw [hext.slot_ne i hib]
      exact hr.running i (hstate i ▸ hi)
  · change (g.slot i).state = .running at hi
    change (s.pipe.tls (g.slot i).tid).isIgnore = false
    rw [hext.tid]
    exact hr.heeds i (hstate i ▸ hi)
  · by_cases ht : t = tid
    · subst ht
      simp only [Function.update_self, Option.some.injEq] at hb'
      subst hb'
      exact hr.busy t b hb
    · simp only [Function.update_of_ne ht] at hb'
      exact hr.busy t b' hb'
  · change RunningSlot (g.slot i) l' f₂ at hrun₂
    change (g.slot i).stream ++ recordBytes (pending l'.entries
      (Function.update s.pipe.busy tid _ (g.slot i).tid)) = recordBytes (recordsOf l'.entries
        (callsOf (g.slot i).tid _))
    rw [hext.tid, callsOf_event]
    by_cases hib : i = b.slot
    · subst hib
      obtain ⟨rfl, -⟩ := hrun'.unique hrun₂
      have hold := hr.stream _ l f hrun
      have htid : (s.pipe.proc.slot b.slot).tid = tid :=
        (hr.live _ hrun.state).2.1.trans (hr.busy tid b hb).2
      rw [htid, hb, pending_next hnext] at hold
      rw [htid, ← hold, Function.update_self, hrec.stream, List.append_assoc,
        ← recordBytes_append]
      rfl
    · rw [hext.slot_ne i hib] at hrun₂ ⊢
      have ht : (s.slot i).tid ≠ tid :=
        fun htid => hib (hr.eq_of_busy hp hb hrun₂.state htid)
      rw [Function.update_of_ne ht]
      exact hr.stream i l' f₂ hrun₂

omit hp in
/-- What a call does that goes on in a live slot: it returns, or records an event. -/
theorem RaceOk.event_cases {tid : Int} {b : CallSt} (hb : s.pipe.busy tid = some b)
    (hlive : (s.slot b.slot).state = .running) :
    ∃ l f, RunningSlot (s.slot b.slot) l f ∧
      ((l.entries[b.next]? = none ∧ exitMachine.step s (.event tid) = .ok { s with
          pipe := { s.pipe with busy := Function.update s.pipe.busy tid none } }) ∨
        ∃ e g, l.entries[b.next]? = some e ∧
          Extends s.pipe.proc b.slot [b.call.recordOf b.samples b.next e] g ∧
          exitMachine.step s (.event tid) = .ok { s with pipe := { s.pipe with
            proc := g
            busy := Function.update s.pipe.busy tid (some { b with next := b.next + 1 }) } }) := by
  obtain ⟨l, f, hrun⟩ := hr.running b.slot hlive
  have hlist : (s.pipe.proc.slot b.slot).evlist = some l := hrun.evlist
  refine ⟨l, f, hrun, ?_⟩
  simp only [exitMachine, hb, ExitSt.round, PipeSt.round, hlist]
  cases hnext : l.entries[b.next]? with
  | none => exact .inl ⟨rfl, rfl⟩
  | some e =>
    obtain ⟨t', f', os', hread, hrun', hrec⟩ :=
      readEvent_spec hrun (List.mem_of_getElem? hnext) b.call b.samples b.next s.pipe.proc.os
    simp only [hread]
    exact .inr ⟨e, _, rfl, extends_setSlot hrun hrun' hrec, rfl⟩

/-- A call goes on in a live slot. -/
theorem RaceOk.event {tid : Int} {b : CallSt} (hb : s.pipe.busy tid = some b)
    (hlive : (s.slot b.slot).state = .running) :
    ∃ s', exitMachine.step s (.event tid) = .ok s' ∧ RaceOk s₀ (h ++ [.event tid]) s' := by
  obtain ⟨l, f, hrun, ⟨hnext, hs⟩ | ⟨e, g, hnext, hext, hs⟩⟩ := hr.event_cases hb hlive
  · exact ⟨_, hs, hr.return hp hb hrun hnext⟩
  · exact ⟨_, hs, hr.recorded hp hb hrun hnext hext⟩

omit hp in
/-- A call goes on in a slot that is destroyed. -/
theorem RaceOk.event_gone {tid : Int} {b : CallSt} (hb : s.pipe.busy tid = some b)
    (hgone : (s.slot b.slot).state ≠ .running) :
    ∃ f, exitMachine.step s (.event tid) = .error f := by
  have hlist := hr.gone b.slot (hr.busy tid b hb).1 hgone
  refine ⟨if b.next = 0 then .fault .nullEvlist else .freedEvsel, ?_⟩
  simp only [exitMachine, hb, ExitSt.round, hlist]

end

/-! ## Slots -/

/-- What a round of `lprobe_exit` does to a running slot. -/
structure SlotGone (g : Proc) (i : Fin profThreadMax) (g' : Proc) : Prop where
  state : (g'.slot i).state = .uninit
  tid : (g'.slot i).tid = -1
  evlist : (g'.slot i).evlist = none
  others : ∀ j, j ≠ i → g'.slot j = g.slot j
  files : g'.os.files = Function.update g.os.files (outfile (g.slot i).tid) (g.slot i).stream

theorem SlotGone.ne_of_running {g g' : Proc} {i j : Fin profThreadMax} (h : SlotGone g i g')
    (hj : (g'.slot j).state = .running) : j ≠ i := by
  rintro rfl
  rw [h.state] at hj
  cases hj

theorem destroyTinfo_evlist (t : ProfTinfo) (os : Os) : (destroyTinfo t os).1.evlist = none := by
  unfold destroyTinfo
  dsimp only
  split
  · rename_i h
    exact h
  · rfl

theorem exitSlot_slotGone {g : Proc} {i : Fin profThreadMax} {l : ProfEvlist} {f : OutFile}
    (h : RunningSlot (g.slot i) l f) (htid : 0 < (g.slot i).tid) (hown : FileOk g i) :
    SlotGone g i (exitSlot g i) := by
  obtain ⟨hstate, hothers, hfiles⟩ := exitSlot_running h htid hown
  have hslot : (exitSlot g i).slot i = (destroyTinfo (g.slot i) g.os).1 := by
    have hne : (g.slot i).tid ≠ -1 := by omega
    simp only [exitSlot, hne, h.state, ↓reduceIte]
    exact Proc.slot_setSlot_self g i _
  refine ⟨hstate, ?_, ?_, hothers, hfiles⟩
  · rw [hslot]
    rfl
  · rw [hslot]
    exact destroyTinfo_evlist _ _

section

variable {pre h : List PipeStep} {s₀ : PipeSt} {s : ExitSt} (hp : PipeOk pre s₀)
  (hr : RaceOk s₀ h s)
include hp hr

theorem RaceOk.slotGone {i : Fin profThreadMax} (hi : (s.slot i).state = .running) :
    SlotGone s.pipe.proc i (exitSlot s.pipe.proc i) := by
  obtain ⟨l, f, hslot⟩ := hr.running i hi
  exact exitSlot_slotGone hslot ((hr.apart hp).tid i hi) (hr.file i)

theorem RaceOk.exit {i : Fin profThreadMax} {todo : List (Fin profThreadMax)}
    (htodo : s.todo = i :: todo) :
    RaceOk s₀ (h ++ [.exit]) ⟨{ s.pipe with proc := exitSlot s.pipe.proc i }, todo⟩ := by
  have hnodup := hr.nodup
  rw [htodo, List.nodup_cons] at hnodup
  by_cases hrun : (s.slot i).state = .running
  · have hd := hr.slotGone hp hrun
    refine ⟨fun j => ?_, fun j hj => ?_, hnodup.2, fun j hj hj₀ => ?_, fun j hj₀ hj => ?_,
      fun j hj => ?_, fun j l' f' hrun' => ?_, hr.tls, fun j hj => ?_, hr.busy,
      fun j l' f' hrun' => ?_⟩
    · by_cases hji : j = i
      · rw [hji]
        exact .inr hd.tid
      · simp only [ExitSt.slot, hd.others j hji]
        exact hr.tid j
    · simp only [ExitSt.slot, hd.others j (hd.ne_of_running hj)] at hj ⊢
      exact hr.live j hj
    · have hji : j ≠ i := fun e => hnodup.1 (e ▸ hj)
      simp only [ExitSt.slot, hd.others j hji]
      exact hr.todo j (htodo ▸ List.mem_cons_of_mem i hj) hj₀
    · by_cases hji : j = i
      · rw [hji]
        exact hd.evlist
      · simp only [ExitSt.slot, hd.others j hji] at hj ⊢
        exact hr.gone j hj₀ hj
    · simp only [ExitSt.slot, hd.others j (hd.ne_of_running hj)] at hj ⊢
      exact hr.running j hj
    · have hji := hd.ne_of_running hrun'.state
      rw [hd.others j hji] at hrun'
      rw [hd.files, Function.update_of_ne, hr.file j l' f' hrun']
      rw [hrun'.path]
      exact (hr.apart hp).file j i hrun'.state hrun hji
    · simp only [ExitSt.slot, hd.others j (hd.ne_of_running hj)] at hj ⊢
      exact hr.heeds j hj
    · have hji := hd.ne_of_running hrun'.state
      simp only [ExitSt.slot, hd.others j hji] at hrun' ⊢
      rw [callsOf_exit]
      exact hr.stream j l' f' hrun'
  · rw [exitSlot_idle hrun]
    refine { hr with
      nodup := hnodup.2
      todo := fun j hj => hr.todo j (htodo ▸ List.mem_cons_of_mem i hj)
      stream := fun j l f hrun => ?_ }
    rw [callsOf_exit]
    exact hr.stream j l f hrun

/-- **Every step** in which no call goes on in a destroyed slot. -/
theorem RaceOk.step {a : PipeStep} (hen : exitMachine.Enabled s a) (hlive : GoesOnLive s a) :
    ∃ s', exitMachine.step s a = .ok s' ∧ RaceOk s₀ (h ++ [a]) s' := by
  cases a with
  | register tid => exact hen.elim
  | enter tid call samples => exact ⟨_, rfl, hr.enter hp hen.2 hen.1 call samples⟩
  | event tid =>
    obtain ⟨b, hb⟩ := hen
    exact hr.event hp hb (hlive tid b rfl hb)
  | exit =>
    cases htodo : s.todo with
    | nil => exact absurd htodo hen
    | cons i todo => exact ⟨_, by simp only [exitMachine, htodo], hr.exit hp htodo⟩

omit hp in
theorem RaceOk.step_fails {a : PipeStep} (hlive : ¬ GoesOnLive s a) :
    ∃ f, exitMachine.step s a = .error f := by
  simp only [GoesOnLive, not_forall] at hlive
  obtain ⟨tid, b, rfl, hb, hgone⟩ := hlive
  exact hr.event_gone hb hgone

theorem RaceOk.step_ok {a : PipeStep} {s' : ExitSt} (hen : exitMachine.Enabled s a)
    (hs : exitMachine.step s a = .ok s') : GoesOnLive s a ∧ RaceOk s₀ (h ++ [a]) s' := by
  have hlive : GoesOnLive s a := by
    by_contra hdead
    obtain ⟨f, hf⟩ := hr.step_fails hdead
    rw [hs] at hf
    cases hf
  obtain ⟨s'', hs'', hr'⟩ := hr.step hp hen hlive
  rw [hs] at hs''
  cases hs''
  exact ⟨hlive, hr'⟩

/-! ## Files -/

/-- A live slot has another file than a slot that is not. -/
theorem RaceOk.outfile_ne {i j : Fin profThreadMax} (hi : (s₀.proc.slot i).state = .running)
    (hj : (s.slot j).state = .running) (hne : i ≠ j) :
    outfile (s₀.proc.slot i).tid ≠ outfile (s.slot j).tid := by
  obtain ⟨hj₀, htid, -⟩ := hr.live j hj
  rw [htid]
  exact hp.apart.file i j hi hj₀ hne

/-- The file of a slot that is destroyed stays as it is. -/
theorem RaceOk.frozen {i : Fin profThreadMax} (hi₀ : (s₀.proc.slot i).state = .running)
    (hi : (s.slot i).state ≠ .running) {a : PipeStep} {s' : ExitSt}
    (hen : exitMachine.Enabled s a) (hs : exitMachine.step s a = .ok s') :
    (s'.slot i).state ≠ .running ∧ s'.pipe.proc.os.files (outfile (s₀.proc.slot i).tid) =
      s.pipe.proc.os.files (outfile (s₀.proc.slot i).tid) := by
  obtain ⟨hlive, -⟩ := hr.step_ok hp hen hs
  have hother : ∀ j, (s.slot j).state = .running → i ≠ j := fun j hj e => hi (e ▸ hj)
  cases a with
  | register tid => exact hen.elim
  | enter tid call samples =>
    cases hs
    exact ⟨hi, rfl⟩
  | event tid =>
    obtain ⟨b, hb⟩ := hen
    have hrunning := hlive tid b rfl hb
    obtain ⟨l, f, hrun, ⟨-, hs'⟩ | ⟨e, g, -, hext, hs'⟩⟩ := hr.event_cases hb hrunning
    · rw [hs'] at hs
      cases hs
      exact ⟨hi, rfl⟩
    · rw [hs'] at hs
      cases hs
      obtain ⟨l', f', f₁, hrun', -, hrec⟩ := hext.slot
      refine ⟨?_, hrec.others _ ?_⟩
      · rw [ExitSt.slot, hext.slot_ne i (hother b.slot hrunning)]
        exact hi
      · rw [hrun'.path]
        exact hr.outfile_ne hp hi₀ hrunning (hother b.slot hrunning)
  | exit =>
    cases htodo : s.todo with
    | nil => exact absurd htodo hen
    | cons j todo =>
      simp only [exitMachine, htodo] at hs
      cases hs
      by_cases hj : (s.slot j).state = .running
      · have hd := hr.slotGone hp hj
        refine ⟨?_, ?_⟩
        · rw [ExitSt.slot, hd.others i (hother j hj)]
          exact hi
        · rw [hd.files, Function.update_of_ne (hr.outfile_ne hp hi₀ hj (hother j hj))]
      · rw [exitSlot_idle hj]
        exact ⟨hi, rfl⟩

omit hp hr in
theorem exitMachine_todo {a : PipeStep} {s' : ExitSt} (ha : a ≠ .exit)
    (hs : exitMachine.step s a = .ok s') : s'.todo = s.todo := by
  cases a with
  | register tid =>
    cases hs
    rfl
  | enter tid call samples =>
    cases hs
    rfl
  | event tid =>
    simp only [exitMachine] at hs
    split at hs
    · cases hs
      rfl
    · unfold ExitSt.round at hs
      split at hs
      · cases hs
      · split at hs
        · cases hs
        · cases hs
          rfl
  | exit => exact absurd rfl ha

end

section

variable {pre : List PipeStep} {s₀ : PipeSt} (hp : PipeOk pre s₀)
include hp

/-- **A run** ends in a fault exactly if a call goes on in a slot that is destroyed. -/
theorem RaceOk.run_iff {as h : List PipeStep} {s : ExitSt} (hr : RaceOk s₀ h s)
    (hl : exitMachine.Legal s as) :
    (∃ s', exitMachine.run s as = .ok s') ↔ exitMachine.AtEach s as GoesOnLive := by
  induction as generalizing h s with
  | nil => exact ⟨fun _ => Machine.atEach_nil, fun _ => ⟨s, rfl⟩⟩
  | cons a as ih =>
    obtain ⟨hen, hrest⟩ := hl
    rw [Machine.atEach_cons]
    constructor
    · rintro ⟨s', hrun⟩
      obtain ⟨t, ht, hrun⟩ := Machine.run_cons_eq_ok.1 hrun
      obtain ⟨hlive, hr'⟩ := hr.step_ok hp hen ht
      refine ⟨hlive, fun t' ht' => ?_⟩
      rw [ht] at ht'
      cases ht'
      exact (ih hr' (hrest t ht)).1 ⟨s', hrun⟩
    · rintro ⟨hlive, hall⟩
      obtain ⟨t, ht, hr'⟩ := hr.step hp hen hlive
      obtain ⟨s', hrun⟩ := (ih hr' (hrest t ht)).2 (hall t ht)
      exact ⟨s', (Machine.run_cons_ok ht).trans hrun⟩

theorem RaceOk.run_frozen {i : Fin profThreadMax} (hi₀ : (s₀.proc.slot i).state = .running)
    {as h : List PipeStep} {s s' : ExitSt} (hr : RaceOk s₀ h s) (hl : exitMachine.Legal s as)
    (hi : (s.slot i).state ≠ .running) (hrun : exitMachine.run s as = .ok s') :
    s'.pipe.proc.os.files (outfile (s₀.proc.slot i).tid) =
      s.pipe.proc.os.files (outfile (s₀.proc.slot i).tid) := by
  induction as generalizing h s with
  | nil =>
    cases hrun
    rfl
  | cons a as ih =>
    obtain ⟨hen, hrest⟩ := hl
    obtain ⟨t, ht, hrun⟩ := Machine.run_cons_eq_ok.1 hrun
    obtain ⟨-, hr'⟩ := hr.step_ok hp hen ht
    obtain ⟨hi', hfile⟩ := hr.frozen hp hi₀ hi hen ht
    exact (ih hr' (hrest t ht) hi' hrun).trans hfile

/-- What a file holds when `lprobe_exit` is through: the records of the calls up to the round that
destroys the slot, without those that the call in progress has not made. -/
theorem RaceOk.written {i : Fin profThreadMax} {l : ProfEvlist}
    (hi₀ : (s₀.proc.slot i).state = .running) (hlist : (s₀.proc.slot i).evlist = some l)
    {as h : List PipeStep} {s s' : ExitSt} (hr : RaceOk s₀ h s) (hl : exitMachine.Legal s as)
    (hi : i ∈ s.todo) (hrun : exitMachine.run s as = .ok s') (hend : s'.todo = []) :
    let tid := (s₀.proc.slot i).tid
    ∃ mid rest t, as = mid ++ .exit :: rest ∧ exitMachine.run s mid = .ok t ∧
      t.todo.head? = some i ∧
      s'.pipe.proc.os.files (outfile tid) ++
        recordBytes (pending l.entries (t.pipe.busy tid)) =
          recordBytes (recordsOf l.entries (callsOf tid (h ++ mid))) := by
  intro tid
  induction as generalizing h s with
  | nil =>
    cases hrun
    rw [hend] at hi
    cases hi
  | cons a as ih =>
    obtain ⟨hen, hrest⟩ := hl
    obtain ⟨s₁, hs₁, hrun'⟩ := Machine.run_cons_eq_ok.1 hrun
    obtain ⟨-, hr'⟩ := hr.step_ok hp hen hs₁
    by_cases hmine : a = .exit ∧ s.todo.head? = some i
    · -- the round that destroys the slot
      obtain ⟨rfl, hhead⟩ := hmine
      obtain ⟨todo, htodo⟩ := List.head?_eq_some_iff.1 hhead
      have hrunning := hr.todo i hi hi₀
      obtain ⟨-, htid, hlist'⟩ := hr.live i hrunning
      obtain ⟨l', f, hslot⟩ := hr.running i hrunning
      obtain rfl : l = l' :=
        Option.some.inj (hlist.symm.trans (hlist'.symm.trans hslot.evlist))
      have hd := hr.slotGone hp hrunning
      have hs₁' := hs₁
      simp only [exitMachine, htodo] at hs₁'
      cases hs₁'
      refine ⟨[], as, s, rfl, rfl, hhead, ?_⟩
      have hstream := hr.stream i l f hslot
      rw [htid] at hstream
      have hfile : (exitSlot s.pipe.proc i).os.files (outfile tid) = (s.slot i).stream := by
        rw [hd.files, htid, Function.update_self]
      rw [hr'.run_frozen hp hi₀ (hrest _ hs₁) (fun hj => hd.ne_of_running hj rfl) hrun', hfile,
        List.append_nil]
      exact hstream
    · have hi' : i ∈ s₁.todo := by
        by_cases ha : a = .exit
        · subst ha
          cases htodo : s.todo with
          | nil => exact absurd htodo hen
          | cons j todo =>
            have hs₁' := hs₁
            simp only [exitMachine, htodo] at hs₁'
            cases hs₁'
            have hne : i ≠ j := fun e => hmine ⟨rfl, by rw [htodo, e]; rfl⟩
            rw [htodo] at hi
            exact (List.mem_cons.1 hi).resolve_left hne
        · rw [exitMachine_todo ha hs₁]
          exact hi
      obtain ⟨mid, rest, t, rfl, hmid, hhead, hfile⟩ := ih hr' (hrest _ hs₁) hi' hrun'
      refine ⟨a :: mid, rest, t, rfl, (Machine.run_cons_ok hs₁).trans hmid, hhead, ?_⟩
      rw [hfile, List.append_assoc]
      rfl

end

/-- **`lprobe_exit` while other threads are in their probes**, after any run from `lprobe_init` on.
In every order of their steps a fault comes exactly if a call goes on in a slot that is destroyed;
and when `lprobe_exit` is through, the file of a thread has the records of its calls up to the
round that destroyed its slot, without those that the call in progress had not made. -/
theorem exit_while_probing {pid : Int} {tls : Tls} {g : Proc} (hpid : ValidTid pid)
    (hinit : InitOk pid tls g)
    (hdist : ∀ i ∈ g.inits, ∀ j ∈ g.inits, (g.slot i).tid = (g.slot j).tid → i = j)
    {pre : List PipeStep} (hpre : ∀ a ∈ pre, a ≠ .exit)
    (hl : pipeMachine.Legal (.start pid tls g) pre) :
    ∃ s, pipeMachine.run (.start pid tls g) pre = .ok s ∧
      ∀ post, exitMachine.Legal (.start s) post →
        ((∃ s', exitMachine.run (.start s) post = .ok s') ↔
          exitMachine.AtEach (.start s) post GoesOnLive) ∧
        ∀ s' i l, exitMachine.run (.start s) post = .ok s' → s'.todo = [] →
          (s.proc.slot i).state = .running → (s.proc.slot i).evlist = some l →
          let tid := (s.proc.slot i).tid
          ∃ mid rest t, post = mid ++ .exit :: rest ∧ exitMachine.run (.start s) mid = .ok t ∧
            t.todo.head? = some i ∧
            s'.pipe.proc.os.files (outfile tid) ++
              recordBytes (pending l.entries (t.pipe.busy tid)) =
                recordBytes (recordsOf l.entries (callsOf tid (pre ++ mid))) := by
  obtain ⟨s, hs, hp⟩ := hl.run_ok_on (fun _ _ _ hP ha hen => pipeOk_step hP ha hen) hpre
    (PipeOk.start hinit hpid hdist)
  refine ⟨s, hs, fun post hlpost => ?_⟩
  rw [hp.exitStart] at hlpost ⊢
  exact ⟨hp.raceOk.run_iff hp hlpost, fun s' i l hrun hend hi hlist =>
    hp.raceOk.written hp hi hlist hlpost (List.mem_finRange i) hrun hend⟩

/-- The main thread is in a probe when its slot, the first one, is destroyed, and goes on. -/
theorem exit_while_probing_main :
    ∃ s, pipeMachine.run (.start 100 ⟨some 0, false, 100⟩ soloProc)
        [.enter 100 someCall fun _ => closedPage] = .ok s ∧
      ¬ ∃ s', exitMachine.run (.start s) [.exit, .event 100] = .ok s' := by
  have hvalid : ValidTid 100 := ⟨by decide, by decide⟩
  obtain ⟨s, hs, hexit⟩ := @exit_while_probing 100 _ _ hvalid (lprobeInit_ok hvalid soloInit_eq)
    (by decide) [.enter 100 someCall fun _ => closedPage] (by simp)
    ⟨⟨rfl, fun _ => ⟨0, by decide, rfl⟩⟩, fun _ _ => trivial⟩
  refine ⟨s, hs, fun hok => ?_⟩
  have hstep : ∃ t b, exitMachine.step (.start s) .exit = .ok t ∧ (ExitSt.start s).todo ≠ [] ∧
      t.pipe.busy 100 = some b ∧ (t.slot b.slot).state = .uninit := by
    cases hs
    exact ⟨_, _, rfl, by decide, rfl, rfl⟩
  obtain ⟨t, b, ht, htodo, hbusy, hgone⟩ := hstep
  have hlegal : exitMachine.Legal (.start s) [.exit, .event 100] :=
    Machine.Legal.cons htodo ht ⟨⟨b, hbusy⟩, fun _ _ => trivial⟩
  have hlive := (Machine.atEach_cons.1 ((hexit _ hlegal).1.1 hok)).2 t ht
  have hrunning := (Machine.atEach_cons.1 hlive).1 100 b rfl hbusy
  rw [hgone] at hrunning
  cases hrunning

end Lprofile.Probe
