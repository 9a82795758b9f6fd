import Lprofile.Probe.Accounting
import Lprofile.Probe.Pipeline

/-!
# Publishing a slot

The creator of a thread fills the slot of the thread store by store while the
thread already runs: the slot can be found once `tid` is stored, and is recorded
in once `state` is RUNNING, before `output_file` is stored. `registrar` is
`lprobe_thread_init` cut at its stores, in program order and with its failure
branches; run alone it is `registerTid` (`registrar_alone`).

`pubMachine` interleaves it with the new thread, which makes a well-nested
sequence of entry and exit probes, one event at a time. An `Activation` is one
call of a function; the ghost `seen` says that its entry probe found the slot
RUNNING. The log is what the thread has stored, tagged with its activations.

A run keeps the log well nested and flushes through no NULL handle exactly when
the exit probes that store something belong to activations whose entry probe
found the slot RUNNING, and the record that fills the buffer is not stored before
`output_file` is (`published_iff`).
-/

namespace Lprofile.Probe

open Lprofile.Lib

/-! ## The stores -/

/-- What `lprobe_thread_init` does next. -/
inductive Pc where
  /-- `tinfo->tid = pid` -/
  | tid
  /-- `thread_nb ++`, and `__create_evlist` up to its stores -/
  | create
  /-- `tinfo->evlist = evlist` -/
  | evlist (l : ProfEvlist)
  /-- `tinfo->state = PROF_STATE_RUNNING` -/
  | running
  /-- `tinfo->state = PROF_STATE_ERROR`, without a list -/
  | failed
  /-- `tinfo->output_file = fopen(outfile, "w")` -/
  | file
  /-- `tinfo->state = PROF_STATE_ERROR`, without a file -/
  | noFile
  /-- `__update_threadnid` -/
  | finish
  | done

/-- Neither `state` nor `output_file` is stored. -/
def Pc.early : Pc → Bool
  | .tid | .create | .evlist _ | .running | .failed => true
  | _ => false

def Proc.store (g : Proc) (id : Fin profThreadMax) (f : ProfTinfo → ProfTinfo) : Proc :=
  g.setSlot id (f (g.slot id))

/-- One store of `lprobe_thread_init`, for the thread `tid` in slot `id`. -/
def registrar (tid : Int) (id : Fin profThreadMax) (g : Proc) : Pc → Proc × Pc
  | .tid => (g.store id fun t => { t with tid := tid }, .create)
  | .create =>
    let r := createEvlist g.info (g.slot id) g.os
    ({ g with info := { g.info with threadNb := g.info.threadNb + 1 }, os := r.2.2,
              inits := g.inits ++ [id] },
      match if r.1 ≠ 0 then none else r.2.1.evlist with
      | none => .failed
      | some l => .evlist l)
  | .evlist l => (g.store id fun t => { t with evlist := some l }, .running)
  | .running => (g.store id fun t => { t with state := .running }, .file)
  | .failed => (g.store id fun t => { t with state := .error }, .file)
  | .file =>
    let r := g.os.fopen (outfile (g.slot id).tid)
    ({ g.store id (fun t => { t with outputFile := r.1 }) with os := r.2 },
      if r.1.isNone then .noFile else .finish)
  | .noFile => (g.store id fun t => { t with state := .error }, .finish)
  | .finish => ({ g with info := updateThreadnid g.info }, .done)
  | .done => (g, .done)

/-! ## The new thread -/

/-- One call of the function `func`. -/
structure Activation where
  ident : Nat
  func : BitVec 32
  seen : Bool
  deriving DecidableEq

/-- A record of the event `ev` that a probe of activation `act` stored. -/
structure Stored where
  act : Nat
  isPost : Bool
  ev : Nat
  record : ProfRecord

structure PubSt where
  proc : Proc
  pc : Pc
  tls : Tls
  stack : List Activation
  next : Nat
  busy : Option (Activation × CallSt)
  log : List Stored

inductive PubStep where
  | store
  /-- a function is called: its entry probe, up to the loop of `__read_count` -/
  | entry (func : BitVec 32) (cyc : BitVec 64) (samples : Nat → PmcSample)
  /-- the innermost call returns: its exit probe, up to the loop -/
  | exit (cyc : BitVec 64) (samples : Nat → PmcSample)
  /-- one round of the loop, or its end -/
  | event

/-- A probe of activation `a` begins. -/
def PubSt.probe (s : PubSt) (tid : Int) (a : Activation) (c : ProbeCall)
    (samples : Nat → PmcSample) : PubSt :=
  let r := enterProbe tid s.tls s.proc.info
  { s with tls := r.1, busy := r.2.map fun i => (a, ⟨c, samples, i, 0⟩) }

def PubSt.round (s : PubSt) (a : Activation) (b : CallSt) : Except Fault PubSt :=
  match (s.proc.slot b.slot).evlist with
  | none => .error .nullEvlist
  | some l =>
    match l.entries[b.next]? with
    | none => .ok { s with busy := none }
    | some e =>
      match readEvent b.call b.next e (b.samples b.next) (s.proc.slot b.slot) s.proc.os with
      | .error f => .error f
      | .ok r => .ok { s with
          proc := { s.proc.setSlot b.slot r.1 with os := r.2 }
          busy := some (a, { b with next := b.next + 1 })
          log := s.log ++ [⟨a.ident, b.call.isPost, b.next, b.call.recordOf b.samples b.next e⟩] }

/-- The thread's lookup succeeds, or has succeeded before. -/
def PubSt.Found (s : PubSt) (tid : Int) : Prop :=
  s.tls.threadinfo = none → findTinfo s.proc.info tid ≠ none

def pubMachine (tid : Int) (id : Fin profThreadMax) : Machine PubSt PubStep Fault where
  Enabled s
    | .store => s.pc ≠ .done
    | .entry _ _ _ => s.busy = none ∧ s.Found tid
    | .exit _ _ => s.busy = none ∧ s.Found tid ∧ s.stack ≠ []
    | .event => s.busy ≠ none
  step s
    | .store =>
      let r := registrar tid id s.proc s.pc
      .ok { s with proc := r.1, pc := r.2 }
    | .entry func cyc samples =>
      let a : Activation := ⟨s.next, func, (enterProbe tid s.tls s.proc.info).2.isSome⟩
      .ok { s.probe tid a ⟨func, false, cyc⟩ samples with stack := a :: s.stack, next := s.next + 1 }
    | .exit cyc samples =>
      match s.stack with
      | [] => .ok s
      | a :: stack => .ok { s.probe tid a ⟨a.func, true, cyc⟩ samples with stack := stack }
    | .event =>
      match s.busy with
      | none => .ok s
      | some (a, b) => s.round a b

def PubSt.start (g : Proc) : PubSt := ⟨g, .tid, .initial, [], 0, none, []⟩

/-- The slot was never initialised, and no slot has the tid of the new thread. -/
structure NewThread (g : Proc) (tid : Int) (id : Fin profThreadMax) : Prop where
  nid : g.info.threadNid = id
  empty : ∃ old, g.slot id = .empty old
  fresh : ∀ i, (g.slot i).tid ≠ tid

/-! ## Well-nested logs -/

def EntryIn (log : List Stored) (act ev : Nat) : Prop :=
  ∃ y ∈ log, y.act = act ∧ y.isPost = false ∧ y.ev = ev

/-- Every exit record comes after the entry record of its activation and event. -/
def WellNested (log : List Stored) : Prop :=
  ∀ pre x post, log = pre ++ x :: post → x.isPost = true → EntryIn pre x.act x.ev

/-- The step stores a record for the probe `b` of activation `a`. -/
def Stores (s : PubSt) (step : PubStep) (a : Activation) (b : CallSt) : Prop :=
  step = .event ∧ s.busy = some (a, b) ∧ b.next < (s.proc.slot b.slot).events.length

/-- An exit probe stores only for an activation whose entry probe found the slot RUNNING. -/
def Matched (s : PubSt) (step : PubStep) : Prop :=
  ∀ a b, Stores s step a b → b.call.isPost = true → a.seen = true

/-- The record that fills the buffer is not stored while `output_file` is NULL. -/
def Room (s : PubSt) (step : PubStep) : Prop :=
  ∀ a b, Stores s step a b → (s.proc.slot b.slot).outputFile = none →
    s.log.length + 1 < profRecordCache

/-! ## The registrar alone -/

/-- The registrar, run alone, gets from one point to another. -/
inductive StoreRun (tid : Int) (id : Fin profThreadMax) : Proc × Pc → Proc × Pc → Prop where
  | refl (p : Proc × Pc) : StoreRun tid id p p
  | step {g : Proc} {pc : Pc} {q r : Proc × Pc} : registrar tid id g pc = q →
      StoreRun tid id q r → StoreRun tid id (g, pc) r

section

variable {tid : Int} {id : Fin profThreadMax} {g : Proc} {os : Os}

theorem StoreRun.trans {p q r : Proc × Pc} (h : StoreRun tid id p q) (h' : StoreRun tid id q r) :
    StoreRun tid id p r := by
  induction h with
  | refl => exact h'
  | step hs _ ih => exact .step hs (ih h')

theorem StoreRun.run {p q : Proc × Pc} (h : StoreRun tid id p q) :
    ∀ s : PubSt, s.proc = p.1 → s.pc = p.2 → ∃ n,
      (pubMachine tid id).run s (List.replicate n .store) =
        .ok { s with proc := q.1, pc := q.2 } := by
  induction h with
  | refl p =>
    rintro ⟨proc, pc, tls, stack, next, busy, log⟩ rfl rfl
    exact ⟨0, rfl⟩
  | step hs _ ih =>
    rintro ⟨proc, pc, tls, stack, next, busy, log⟩ rfl rfl
    obtain ⟨n, hn⟩ := ih ⟨_, _, tls, stack, next, busy, log⟩ rfl rfl
    refine ⟨n + 1, ?_⟩
    rw [List.replicate_succ, Machine.run_cons_ok rfl, ← hn, ← hs]

theorem store_setSlot (g : Proc) (os : Os) (t : ProfTinfo) (f : ProfTinfo → ProfTinfo) :
    ({ g.setSlot id t with os := os } : Proc).store id f =
      { g.setSlot id (f t) with os := os } := by
  simp only [Proc.store, Proc.slot, Proc.setSlot, Function.update_self, Function.update_idem]

theorem registrar_file {f : Option OutFile} (h : g.os.fopen (outfile (g.slot id).tid) = (f, os)) :
    registrar tid id g .file =
      ({ g.setSlot id { g.slot id with outputFile := f } with os := os },
        if f.isNone then .noFile else .finish) := by
  simp only [registrar, h]
  rfl

/-- From `fopen` on. -/
theorem storeRun_file (g : Proc) (tid : Int) :
    StoreRun tid id (g, .file) (match g.os.fopen (outfile (g.slot id).tid) with
      | (some f, os) =>
        ({ g.setSlot id { g.slot id with outputFile := some f } with os := os }, .finish)
      | (none, os) =>
        ({ g.setSlot id { g.slot id with outputFile := none, state := .error } with os := os },
          .finish)) := by
  rcases ho : g.os.fopen (outfile (g.slot id).tid) with ⟨_ | f, os⟩
  · refine .step (registrar_file ho) ?_
    exact .step (congrArg (fun p => (p, Pc.finish)) (store_setSlot g os _ _)) (.refl _)
  · exact .step (registrar_file ho) (.refl _)

/-- `__init_thread` is the stores after `tid`. -/
theorem storeRun_init (g : Proc) (tid : Int) (id : Fin profThreadMax) :
    StoreRun tid id (g, .create)
      (initThread { g with info := { g.info with threadNb := g.info.threadNb + 1 } } id,
        .finish) := by
  obtain ⟨-, hcase⟩ := createEvlist_spec g.info (g.slot id) g.os
  rcases hr : createEvlist g.info (g.slot id) g.os with ⟨ret, t, os⟩
  generalize hg : ({ g with info := { g.info with threadNb := g.info.threadNb + 1 } } : Proc) = g'
  have hcreate : createEvlist g'.info (g'.slot id) g'.os = (ret, t, os) := by
    subst hg
    exact hr
  have h1 : registrar tid id g .create = ({ g' with os := os, inits := g'.inits ++ [id] },
      match if ret ≠ 0 then none else t.evlist with
      | none => .failed
      | some l => .evlist l) := by
    simp only [registrar, hr, ← hg]
  simp only [initThread, initTinfo, hcreate]
  generalize hg0 : ({ g' with os := os, inits := g'.inits ++ [id] } : Proc) = g0 at h1
  have hslot : g0.slot id = g.slot id := by
    rw [← hg0, ← hg]
    rfl
  have hos : ∀ t, (g0.setSlot id t).os = os := by
    intro t
    rw [← hg0]
    rfl
  simp only [hr] at hcase
  rcases hcase with ⟨rfl, rfl⟩ | ⟨rfl, l, -, rfl⟩
  · refine .step h1 (.step rfl ((storeRun_file _ tid).trans ?_))
    have hret : ((-1 : Int) ≠ 0) = True := by decide
    simp only [Proc.store, Proc.slot_setSlot_self, hslot, hos, hret, ↓reduceIte]
    simp only [setSlot_setSlot]
    rcases os.fopen (outfile (g.slot id).tid) with ⟨_ | f, os'⟩
    · rw [← hg0]
      exact .refl _
    · rw [← hg0]
      exact .refl _
  · refine .step h1 (.step rfl (.step rfl ((storeRun_file _ tid).trans ?_)))
    simp only [Proc.store, Proc.slot_setSlot_self, hslot, hos, setSlot_setSlot, ne_eq,
      not_true_eq_false, ↓reduceIte]
    rcases os.fopen (outfile (g.slot id).tid) with ⟨_ | f, os'⟩
    · rw [← hg0]
      exact .refl _
    · rw [← hg0]
      exact .refl _

/-- **The stores, one after the other, are the registration.** -/
theorem registrar_alone (h : NewThread g tid id) :
    ∃ n s, (pubMachine tid id).run (.start g) (List.replicate n .store) = .ok s ∧
      s.pc = .done ∧ registerTid tid g = .ok s.proc := by
  have hreg : registerTid tid g =
      .ok (takeSlot (g.setSlot id { g.slot id with tid := tid }) id) := by
    rw [registerTid, slotAt_eq h.nid]
  have hall : StoreRun tid id (g, .tid)
      (takeSlot (g.setSlot id { g.slot id with tid := tid }) id, .done) := by
    refine .step rfl ((storeRun_init _ tid id).trans (.step rfl ?_))
    exact .refl _
  obtain ⟨n, hn⟩ := hall.run (.start g) rfl rfl
  exact ⟨n, _, hn, rfl, hreg⟩

end

end Lprofile.Probe
