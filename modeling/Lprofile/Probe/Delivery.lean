import Lprofile.Probe.Creation
import Lprofile.Probe.Pipeline

/-!
# Delivery of records

What the calls of a thread read, and what its file and the report then hold. The
file is always the records of the thread's own calls, in order
(`pipeline_files`); each record carries the call's time stamp, function and
position as long as the function number fits the 16 bits of `func_idx`
(`carries_record`).
-/

namespace Lprofile.Probe

open Lprofile.Lib

/-- One event read by one call. -/
structure Reading where
  call : ProbeCall
  ev : Nat
  count : BitVec 64

/-- The record `__read_count` stores for it. -/
def Reading.record (x : Reading) : ProfRecord := x.call.record x.ev x.count

/-- What the calls read from the events `es`, call by call and in list order. -/
def readingsOf (es : List ProfEvsel) (calls : List (ProbeCall × (Nat → PmcSample))) :
    List Reading :=
  calls.flatMap fun c => es.mapIdx fun i e => ⟨c.1, i, evselCount e (c.2 i)⟩

/-- The record carries the call's time stamp, function and position, and the count. -/
structure Carries (x : Reading) (r : ProfRecord) : Prop where
  ts : r.ts = x.call.cyc
  func : r.funcIdx.toNat = x.call.func.toNat
  pos : r.pos = if x.call.isPost then 1 else 0
  count : r.count = x.count

/-- The file is the records of these readings, one each and in order, and the report of the file,
or of any prefix of its bytes, is one line for each complete record. -/
def Delivered (path : CStr) (file : List Byte) (xs : List Reading) : Prop :=
  ∃ rs, List.Forall₂ Carries xs rs ∧ file = recordBytes rs ∧
    ∀ k, Utils.process false path (some (file.take k)) =
      (true, ⟨(rs.take (k / profRecordSize)).flatMap Utils.recordLine,
        ["Total ".toList ++ decimal (rs.take (k / profRecordSize)).length ++ " records".toList]⟩)

theorem recordsOf_eq (es : List ProfEvsel) (calls : List (ProbeCall × (Nat → PmcSample))) :
    recordsOf es calls = (readingsOf es calls).map Reading.record := by
  rw [recordsOf, readingsOf, List.map_flatMap]
  refine List.flatMap_congr fun c _ => List.ext_getElem? fun i => ?_
  simp only [callRecords, List.getElem?_mapIdx, List.getElem?_map, Option.map_map]
  rfl

/-- `func_idx` has 16 bits. -/
theorem carries_record (x : Reading) : Carries x x.record ↔ x.call.func.toNat < 2 ^ 16 := by
  have hmod : (x.record).funcIdx.toNat = x.call.func.toNat % 2 ^ 16 := by
    simp [Reading.record, ProbeCall.record]
  constructor
  · intro h
    have := h.func
    omega
  · intro h
    exact ⟨rfl, by omega, rfl, rfl⟩

theorem recordBytes_cons (r : ProfRecord) (rs : List ProfRecord) :
    recordBytes (r :: rs) = r.bytes ++ recordBytes rs := List.flatMap_cons

theorem recordBytes_cons_ne_nil (r : ProfRecord) (rs : List ProfRecord) :
    recordBytes (r :: rs) ≠ [] := by
  have hpos : 0 < profRecordSize := by decide
  rw [recordBytes_cons]
  refine List.ne_nil_of_length_pos ?_
  rw [List.length_append, length_bytes]
  omega

theorem recordBytes_injective : ∀ {rs qs : List ProfRecord}, recordBytes rs = recordBytes qs →
    rs = qs
  | [], [], _ => rfl
  | [], q :: qs, h => absurd h.symm (recordBytes_cons_ne_nil q qs)
  | r :: rs, [], h => absurd h (recordBytes_cons_ne_nil r rs)
  | r :: rs, q :: qs, h => by
    rw [recordBytes_cons, recordBytes_cons] at h
    obtain ⟨h1, h2⟩ := List.append_inj h (by rw [length_bytes, length_bytes])
    have hrq : r = q := by rw [← Utils.ofBytes_bytes r, h1, Utils.ofBytes_bytes]
    rw [hrq, recordBytes_injective h2]

theorem delivered_iff (path : CStr) (es : List ProfEvsel)
    (calls : List (ProbeCall × (Nat → PmcSample))) :
    Delivered path (recordBytes (recordsOf es calls)) (readingsOf es calls) ↔
      (es ≠ [] → ∀ c ∈ calls, c.1.func.toNat < 2 ^ 16) := by
  have hall : List.Forall₂ Carries (readingsOf es calls) (recordsOf es calls) ↔
      ∀ x ∈ readingsOf es calls, x.call.func.toNat < 2 ^ 16 := by
    rw [recordsOf_eq, List.forall₂_map_right_iff, List.forall₂_same]
    simp only [carries_record]
  have hcalls : (∀ x ∈ readingsOf es calls, x.call.func.toNat < 2 ^ 16) ↔
      (es ≠ [] → ∀ c ∈ calls, c.1.func.toNat < 2 ^ 16) := by
    constructor
    · intro h hes c hc
      obtain ⟨e, es, rfl⟩ := List.exists_cons_of_ne_nil hes
      refine h ⟨c.1, 0, evselCount e (c.2 0)⟩ (List.mem_flatMap.2 ⟨c, hc, ?_⟩)
      rw [List.mapIdx_cons]
      exact List.mem_cons_self
    · intro h x hx
      obtain ⟨c, hc, hx⟩ := List.mem_flatMap.1 hx
      obtain ⟨i, hi, rfl⟩ := List.mem_mapIdx.1 hx
      exact h (List.ne_nil_of_length_pos (by omega)) c hc
  rw [← hcalls, ← hall]
  constructor
  · rintro ⟨rs, hrs, hfile, -⟩
    rwa [recordBytes_injective hfile]
  · intro h
    exact ⟨_, h, rfl, fun k => Utils.process_take path _ k⟩

/-- **The record pipeline.** After a successful `lprobe_init`, registrations of threads with
different tids, any interleaving of their probe calls, then `lprobe_exit` and any further probes
and exits: nothing faults (in particular no store leaves `records`), and the records of each
running thread are delivered exactly when its calls have function numbers that fit `func_idx`. -/
theorem pipeline_delivers_iff (evlistStr : CStr) (minId maxId freq : Nat) (pid : Int)
    (mutexOk : Bool) (namelist : Option (List CStr)) (os : Os) (tls : Tls) (g : Proc)
    (hpid : ValidTid pid)
    (hinit : lprobeInit evlistStr minId maxId freq pid mutexOk namelist .initial
      (Proc.initial os) = .ok (0, tls, g))
    (hdist : ∀ i ∈ g.inits, ∀ j ∈ g.inits, (g.slot i).tid = (g.slot j).tid → i = j)
    (pre post : List PipeStep) (hpre : ∀ a ∈ pre, a ≠ .exit)
    (hl : pipeMachine.Legal (.start pid tls g) (pre ++ .exit :: post)) :
    ∃ s s', pipeMachine.run (.start pid tls g) pre = .ok s ∧
      pipeMachine.run (.start pid tls g) (pre ++ .exit :: post) = .ok s' ∧
      ∀ i l, (s.proc.slot i).state = .running → (s.proc.slot i).evlist = some l →
        let tid := (s.proc.slot i).tid
        s'.proc.os.files (outfile tid) = recordBytes (recordsOf l.entries (callsOf tid pre)) ∧
        (Delivered (outfile tid) (s'.proc.os.files (outfile tid))
            (readingsOf l.entries (callsOf tid pre)) ↔
          (l.entries ≠ [] → ∀ c ∈ callsOf tid pre, c.1.func.toNat < 2 ^ 16)) := by
  obtain ⟨s, s', hs, hs', hfiles⟩ :=
    pipeline_files hpid (lprobeInit_ok hpid hinit) hdist hpre hl
  refine ⟨s, s', hs, hs', fun i l hrun hlist => ?_⟩
  have hfile := hfiles i l hrun hlist
  simp only [hfile, true_and]
  exact delivered_iff _ _ _

/-! ## One call after another -/

/-- Thread `tid` is between two calls; its slot `i` is running with the list `l`. -/
structure Between (tid : Int) (i : Fin profThreadMax) (l : ProfEvlist) (s : PipeSt) : Prop where
  ok : ∃ h, PipeOk h s
  idle : s.busy tid = none
  tid : (s.proc.slot i).tid = tid
  running : (s.proc.slot i).state = .running
  evlist : (s.proc.slot i).evlist = some l

/-- The steps of a call on a list of `m` events: its first half, a round for each event, and the
return. -/
def callSteps (tid : Int) (call : ProbeCall) (samples : Nat → PmcSample) (m : Nat) :
    List PipeStep :=
  .enter tid call samples :: List.replicate (m + 1) (.event tid)

section

variable {tid : Int} {i : Fin profThreadMax} {l : ProfEvlist}

/-- The rounds of a call from the event `b.next` on, and its return. -/
theorem between_rounds : ∀ {m : Nat} {s : PipeSt} {h : List PipeStep} {b : CallSt},
    PipeOk h s → s.busy tid = some b → (s.proc.slot b.slot).evlist = some l →
      b.next + m = l.entries.length →
      ∃ s', pipeMachine.run s (List.replicate (m + 1) (.event tid)) = .ok s' ∧
        pipeMachine.Legal s (List.replicate (m + 1) (.event tid)) ∧ Between tid b.slot l s'
  | 0, s, h, b, hp, hb, hl, hm => by
    obtain ⟨htid, hstate⟩ := hp.busy tid b hb
    obtain ⟨l', f, hrun⟩ := hp.table.running b.slot hstate
    obtain rfl : l = l' := Option.some.inj (hl.symm.trans hrun.evlist)
    have hnext : l.entries[b.next]? = none := List.getElem?_eq_none_iff.2 (by omega)
    have hstep : pipeMachine.step s (.event tid) =
        .ok { s with busy := Function.update s.busy tid none } := by
      simp only [pipeMachine, hb, PipeSt.round, hl, hnext]
    exact ⟨_, Machine.run_cons_ok hstep, .cons ⟨b, hb⟩ hstep trivial,
      ⟨_, hp.return hb hrun hnext⟩, Function.update_self .., htid, hstate, hl⟩
  | m + 1, s, h, b, hp, hb, hl, hm => by
    obtain ⟨l', f, hrun⟩ := hp.table.running b.slot (hp.busy tid b hb).2
    obtain rfl : l = l' := Option.some.inj (hl.symm.trans hrun.evlist)
    have hlt : b.next < l.entries.length := by omega
    obtain ⟨t', f', os', hread, hrun', hrec⟩ :=
      readEvent_spec hrun (List.getElem_mem hlt) b.call b.samples b.next s.proc.os
    have hnext : l.entries[b.next]? = some l.entries[b.next] := List.getElem?_eq_getElem hlt
    have hstep : pipeMachine.step s (.event tid) = .ok { s with
        proc := { s.proc.setSlot b.slot t' with os := os' }
        busy := Function.update s.busy tid (some { b with next := b.next + 1 }) } := by
      simp only [pipeMachine, hb, PipeSt.round, hl, hnext, hread]
    have hslot : ({ s.proc.setSlot b.slot t' with os := os' } : Proc).slot b.slot = t' :=
      Proc.slot_setSlot_self s.proc b.slot t'
    obtain ⟨s', hs', hlegal, hbetween⟩ :=
      between_rounds (hp.recorded hb hrun hnext (extends_setSlot hrun hrun' hrec))
        (Function.update_self ..) ((congrArg ProfTinfo.evlist hslot).trans hrun'.evlist)
        (show b.next + 1 + m = _ by omega)
    rw [List.replicate_succ]
    exact ⟨s', (Machine.run_cons_ok hstep).trans hs', .cons ⟨b, hb⟩ hstep hlegal, hbetween⟩

/-- A whole call. -/
theorem Between.call {s : PipeSt} (hs : Between tid i l s) (call : ProbeCall)
    (samples : Nat → PmcSample) :
    ∃ s', pipeMachine.run s (callSteps tid call samples l.entries.length) = .ok s' ∧
      pipeMachine.Legal s (callSteps tid call samples l.entries.length) ∧ Between tid i l s' := by
  obtain ⟨h, hp⟩ := hs.ok
  have hi := hp.table.mem_inits_of_running hs.running
  have hen : pipeMachine.Enabled s (.enter tid call samples) := ⟨hs.idle, fun _ => ⟨i, hi, hs.tid⟩⟩
  obtain ⟨tls, -, -, he⟩ := hp.enterProbe_eq hi hs.tid
  rw [if_pos hs.running] at he
  obtain ⟨s₁, hs₁, hp₁⟩ := hp.enter hen
  have hstep := hs₁
  simp only [pipeMachine, he, Option.map_some, Except.ok.injEq] at hs₁
  subst hs₁
  obtain ⟨s', hrun, hlegal, hbetween⟩ := between_rounds (m := l.entries.length) hp₁
    (Function.update_self ..) hs.evlist (Nat.zero_add _)
  exact ⟨s', (Machine.run_cons_ok hstep).trans hrun, .cons hen hstep hlegal, hbetween⟩

/-- **Any number of equal calls.** -/
theorem Between.calls (call : ProbeCall) (samples : Nat → PmcSample) : ∀ (n : Nat) {s : PipeSt},
    Between tid i l s →
      ∃ s', pipeMachine.run s
          (List.replicate n (callSteps tid call samples l.entries.length)).flatten = .ok s' ∧
        pipeMachine.Legal s
          (List.replicate n (callSteps tid call samples l.entries.length)).flatten ∧
        Between tid i l s'
  | 0, s, hs => ⟨s, rfl, trivial, hs⟩
  | n + 1, s, hs => by
    obtain ⟨s₁, hrun₁, hlegal₁, hs₁⟩ := hs.call call samples
    obtain ⟨s', hrun, hlegal, hs'⟩ := Between.calls call samples n hs₁
    rw [List.replicate_succ, List.flatten_cons]
    exact ⟨s', (Machine.run_append_ok hrun₁).trans hrun, hlegal₁.append_of_run hrun₁ hlegal, hs'⟩

theorem callsOf_calls (call : ProbeCall) (samples : Nat → PmcSample) (m n : Nat) :
    callsOf tid (List.replicate n (callSteps tid call samples m)).flatten =
      List.replicate n (call, samples) := by
  have hone : callsOf tid (callSteps tid call samples m) = [(call, samples)] := by
    simp [callsOf, callSteps]
  induction n with
  | zero => rfl
  | succ n ih =>
    rw [List.replicate_succ, List.flatten_cons, callsOf_append, hone, ih, List.replicate_succ]
    rfl

end

/-! ## Two threads -/

def pipeStart : PipeSt := .start 100 ⟨some 0, false, 100⟩ soloProc

/-- Thread 200 is registered. Then it and thread 100 call the entry probes of `f` and `g`, and read
their events in turns; there are `n` of them. -/
def bothCall (n : Nat) (f g : BitVec 32) : List PipeStep :=
  [.register 200, .enter 200 ⟨f, false, 1000⟩ fun _ => closedPage,
    .enter 100 ⟨g, false, 1001⟩ fun _ => closedPage] ++
  (List.replicate (n + 1) [.event 100, .event 200]).flatten

/-- After `lprobe_exit` thread 100 calls the exit probe of `g`. -/
def afterExit (g : BitVec 32) : List PipeStep :=
  [.enter 100 ⟨g, true, 2000⟩ fun _ => closedPage]

/-- With both threads out of their calls `lprobe_exit` can be called, and a probe after it. -/
theorem legal_afterExit {s : PipeSt} (h100 : s.busy 100 = none) (h200 : s.busy 200 = none)
    (hrest : ∀ tid, tid ≠ 100 → tid ≠ 200 → s.busy tid = none) (g : BitVec 32) :
    pipeMachine.Legal s (.exit :: afterExit g) := by
  refine .cons (fun tid => ?_) rfl ⟨⟨h100, nofun⟩, fun _ _ => trivial⟩
  by_cases ht : tid = 100
  · rw [ht, h100]
  · by_cases ht' : tid = 200
    · rw [ht', h200]
    · exact hrest tid ht ht'

theorem legal_bothCall (f g : BitVec 32) :
    pipeMachine.Legal pipeStart (bothCall 1 f g ++ .exit :: afterExit g) := by
  refine ⟨⟨rfl, ⟨by decide, by decide⟩, by decide⟩, fun s hs => ?_⟩
  cases hs
  refine ⟨⟨rfl, fun _ => ⟨1, by decide, rfl⟩⟩, fun s hs => ?_⟩
  cases hs
  refine ⟨⟨rfl, fun _ => ⟨0, show (0 : Fin profThreadMax) ∈ [0, 1] by decide, rfl⟩⟩,
    fun s hs => ?_⟩
  cases hs
  refine ⟨⟨_, rfl⟩, fun s hs => ?_⟩
  cases hs
  refine ⟨⟨_, rfl⟩, fun s hs => ?_⟩
  cases hs
  refine ⟨⟨_, rfl⟩, fun s hs => ?_⟩
  cases hs
  refine ⟨⟨_, rfl⟩, fun s hs => ?_⟩
  cases hs
  refine legal_afterExit rfl rfl (fun tid h100 h200 => ?_) g
  simp only [Function.update_of_ne h200, Function.update_of_ne h100]
  rfl

theorem pipeline_delivers_iff_child :
    ∃ s s', pipeMachine.run pipeStart (bothCall 1 7 8) = .ok s ∧
      pipeMachine.run pipeStart (bothCall 1 7 8 ++ .exit :: afterExit 8) = .ok s' ∧
      ∀ i l, (s.proc.slot i).state = .running → (s.proc.slot i).evlist = some l →
        let tid := (s.proc.slot i).tid
        s'.proc.os.files (outfile tid) =
          recordBytes (recordsOf l.entries (callsOf tid (bothCall 1 7 8))) ∧
        (Delivered (outfile tid) (s'.proc.os.files (outfile tid))
            (readingsOf l.entries (callsOf tid (bothCall 1 7 8))) ↔
          (l.entries ≠ [] → ∀ c ∈ callsOf tid (bothCall 1 7 8), c.1.func.toNat < 2 ^ 16)) :=
  pipeline_delivers_iff _ _ _ _ _ _ _ _ _ _ ⟨by decide, by decide⟩ soloInit_eq (by decide)
    (bothCall 1 7 8) (afterExit 8) (by simp [bothCall]) (legal_bothCall 7 8)

/-- Thread 200 is registered and calls the entry probe of function `func`. -/
def oneCall (func : BitVec 32) : List PipeStep :=
  [.register 200, .enter 200 ⟨func, false, 1000⟩ fun _ => closedPage, .event 200, .event 200]

theorem legal_oneCall (func : BitVec 32) :
    pipeMachine.Legal pipeStart (oneCall func ++ [.exit]) := by
  refine ⟨⟨rfl, ⟨by decide, by decide⟩, by decide⟩, fun s hs => ?_⟩
  cases hs
  refine ⟨⟨rfl, fun _ => ⟨1, by decide, rfl⟩⟩, fun s hs => ?_⟩
  cases hs
  refine ⟨⟨_, rfl⟩, fun s hs => ?_⟩
  cases hs
  refine ⟨⟨_, rfl⟩, fun s hs => ?_⟩
  cases hs
  refine ⟨fun tid => ?_, fun _ _ => trivial⟩
  by_cases ht : tid = 200
  · rw [ht]
    rfl
  · simp only [Function.update_of_ne ht]
    rfl

/-- The record of a call for function 65536 names function 0. -/
theorem wide_function_lost :
    pipeMachine.Legal pipeStart (oneCall 65536 ++ [.exit]) ∧
    ∃ s s' i l, pipeMachine.run pipeStart (oneCall 65536) = .ok s ∧
      pipeMachine.run pipeStart (oneCall 65536 ++ [.exit]) = .ok s' ∧
      (s.proc.slot i).state = .running ∧ (s.proc.slot i).evlist = some l ∧
      (s.proc.slot i).tid = 200 ∧
      ¬ Delivered (outfile 200) (s'.proc.os.files (outfile 200))
        (readingsOf l.entries (callsOf 200 (oneCall 65536))) := by
  have hvalid : ValidTid 100 := ⟨by decide, by decide⟩
  obtain ⟨s, s', hs, hs', hfiles⟩ := pipeline_files hvalid
    (lprobeInit_ok hvalid soloInit_eq) (by decide) (by simp [oneCall]) (legal_oneCall 65536)
  have hslot : (s.proc.slot 1).state = .running ∧ (s.proc.slot 1).tid = 200 ∧
      ∃ l, (s.proc.slot 1).evlist = some l ∧ l.entries ≠ [] := by
    cases hs
    exact ⟨rfl, rfl, _, rfl, List.cons_ne_nil _ _⟩
  obtain ⟨hrun, htid, l, hl, hne⟩ := hslot
  refine ⟨legal_oneCall 65536, s, s', 1, l, hs, hs', hrun, hl, htid, fun h => ?_⟩
  have hfile := hfiles 1 l hrun hl
  rw [htid] at hfile
  rw [hfile, delivered_iff] at h
  have hlt := h hne (⟨65536, false, 1000⟩, fun _ => closedPage) (by simp [callsOf, oneCall])
  revert hlt
  decide

end Lprofile.Probe
