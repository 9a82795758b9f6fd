import Lprofile.Probe.Creation
import Lprofile.Probe.Publish

/-!
# Nesting of a new thread's records

The invariant of `pubMachine`. `TraceOk` is about the ghosts: an activation that
was seen has all its entry records in the log once its entry probe is over, one
that was not seen has none. `PubOk` adds the slot and the registrar: the log is
what is in the buffer and the file, and until `output_file` is stored the buffer
holds all of it.

So each step that stores an exit record keeps the log well nested exactly when
its activation was seen, and a step faults exactly when it fills the buffer
without a file.
-/

namespace Lprofile.Probe

open Lprofile.Lib

/-! ## The log -/

theorem wellNested_snoc {log : List Stored} {x : Stored} :
    WellNested (log ++ [x]) ↔ WellNested log ∧ (x.isPost = true → EntryIn log x.act x.ev) :=
  Ledger.forall_split_snoc (Q := fun pre (x : Stored) => x.isPost = true → EntryIn pre x.act x.ev)

theorem EntryIn.append {log log' : List Stored} {act ev : Nat} (h : EntryIn log act ev) :
    EntryIn (log ++ log') act ev := by
  obtain ⟨y, hy, h⟩ := h
  exact ⟨y, List.mem_append_left _ hy, h⟩

/-- What the stack and the log have to do with each other, for a list of `n` events. -/
structure TraceOk (n : Nat) (s : PubSt) : Prop where
  below : ∀ a ∈ s.stack, a.ident < s.next
  inj : ∀ a ∈ s.stack, ∀ a' ∈ s.stack, a.ident = a'.ident → a = a'
  logged : ∀ x ∈ s.log, x.act < s.next
  busy : ∀ a b, s.busy = some (a, b) → a.ident < s.next
  /-- an entry probe that was made to its end left a record for each event -/
  complete : ∀ a ∈ s.stack, a.seen = true →
    (∀ b, s.busy = some (a, b) → b.call.isPost = true) → ∀ j < n, EntryIn s.log a.ident j
  entering : ∀ a b, s.busy = some (a, b) → b.call.isPost = false →
    a ∈ s.stack ∧ a.seen = true ∧ ∀ j < b.next, EntryIn s.log a.ident j
  leaving : ∀ a b, s.busy = some (a, b) → b.call.isPost = true → a.seen = true →
    ∀ j < n, EntryIn s.log a.ident j
  unseen : ∀ a, (a ∈ s.stack ∨ ∃ b, s.busy = some (a, b)) → a.seen = false →
    ∀ x ∈ s.log, x.act = a.ident → x.isPost = true

section

variable {n : Nat} {s : PubSt} {a : Activation} {b : CallSt}

theorem busy_eq {call : Option CallSt} {a' : Activation}
    (h : (call.map fun b => (a, b)) = some (a', b)) : a' = a ∧ call = some b := by
  cases call with
  | none => cases h
  | some b' =>
    cases h
    exact ⟨rfl, rfl⟩

/-- Only the list of events changes, and no entry probe found the slot RUNNING yet. -/
theorem TraceOk.early (h : TraceOk n s) (hseen : ∀ a ∈ s.stack, a.seen = false)
    (hbusy : s.busy = none) (m : Nat) : TraceOk m s where
  below := h.below
  inj := h.inj
  logged := h.logged
  busy := h.busy
  complete a ha hs := by
    rw [hseen a ha] at hs
    cases hs
  entering a b hb := by
    rw [hbusy] at hb
    cases hb
  leaving a b hb := by
    rw [hbusy] at hb
    cases hb
  unseen := h.unseen

/-- An entry probe begins, or is skipped. -/
theorem TraceOk.entry (h : TraceOk n s) (hbusy : s.busy = none) (func : BitVec 32)
    (call : Option CallSt) (hcall : ∀ b, call = some b → b.call.isPost = false ∧ b.next = 0)
    (tls : Tls) :
    let a : Activation := ⟨s.next, func, call.isSome⟩
    TraceOk n { s with tls := tls, stack := a :: s.stack, next := s.next + 1,
                       busy := call.map fun b => (a, b) } := by
  intro a
  refine ⟨fun a' ha' => ?_, fun a' ha' a'' ha'' e => ?_, fun x hx => ?_, fun a' b hb => ?_,
    fun a' ha' hs hpost => ?_, fun a' b hbusy' _ => ?_, fun a' b hbusy' hpost => ?_,
    fun a' ha' hs x hx e => ?_⟩
  · rcases List.mem_cons.1 ha' with rfl | ha'
    · exact Nat.lt_succ_self _
    · exact Nat.lt_succ_of_lt (h.below a' ha')
  · rcases List.mem_cons.1 ha' with rfl | ha' <;> rcases List.mem_cons.1 ha'' with rfl | ha''
    · rfl
    · exact absurd e.symm (h.below a'' ha'').ne
    · exact absurd e (h.below a' ha').ne
    · exact h.inj a' ha' a'' ha'' e
  · exact Nat.lt_succ_of_lt (h.logged x hx)
  · rw [(busy_eq hb).1]
    exact Nat.lt_succ_self _
  · rcases List.mem_cons.1 ha' with rfl | ha'
    · obtain ⟨b, hb'⟩ := Option.isSome_iff_exists.1 hs
      have hpost' := hpost b (by simp only [hb', Option.map_some])
      rw [(hcall b hb').1] at hpost'
      cases hpost'
    · refine h.complete a' ha' hs fun b hb' => ?_
      rw [hbusy] at hb'
      cases hb'
  · obtain ⟨rfl, hc⟩ := busy_eq hbusy'
    refine ⟨List.mem_cons_self, by simp only [a, hc, Option.isSome_some], fun j hj => ?_⟩
    rw [(hcall b hc).2] at hj
    cases hj
  · obtain ⟨-, hc⟩ := busy_eq hbusy'
    rw [(hcall b hc).1] at hpost
    cases hpost
  · have hx' := h.logged x hx
    have hfresh : a' = a → False := by
      rintro rfl
      exact absurd e hx'.ne
    rcases ha' with ha' | ⟨b, hb'⟩
    · rcases List.mem_cons.1 ha' with rfl | ha'
      · exact (hfresh rfl).elim
      · exact h.unseen a' (.inl ha') hs x hx e
    · exact (hfresh (busy_eq hb').1).elim

/-- The exit probe of the innermost activation begins, or is skipped. -/
theorem TraceOk.exit {stack : List Activation} (h : TraceOk n s) (hbusy : s.busy = none)
    (hstack : s.stack = a :: stack) (call : Option CallSt)
    (hcall : ∀ b, call = some b → b.call.isPost = true) (tls : Tls) :
    TraceOk n { s with tls := tls, stack := stack, busy := call.map fun b => (a, b) } := by
  have hmem : a ∈ s.stack := by
    rw [hstack]
    exact List.mem_cons_self
  have hsub : ∀ a' ∈ stack, a' ∈ s.stack := by
    intro a' ha'
    rw [hstack]
    exact List.mem_cons_of_mem _ ha'
  have hidle : ∀ a' b, s.busy = some (a', b) → b.call.isPost = true := by
    intro a' b hb
    rw [hbusy] at hb
    cases hb
  refine ⟨fun a' ha' => h.below a' (hsub a' ha'),
    fun a' ha' a'' ha'' => h.inj a' (hsub a' ha') a'' (hsub a'' ha''), h.logged,
    fun a' b hb => ?_, fun a' ha' hs _ => h.complete a' (hsub a' ha') hs fun b => hidle a' b,
    fun a' b hb' hpost => ?_, fun a' b hb' _ hs => ?_, fun a' ha' hs => ?_⟩
  · rw [(busy_eq hb).1]
    exact h.below a hmem
  · rw [hcall b (busy_eq hb').2] at hpost
    cases hpost
  · obtain ⟨rfl, -⟩ := busy_eq hb'
    exact h.complete a' hmem hs fun b => hidle a' b
  · refine h.unseen a' (.inl ?_) hs
    rcases ha' with ha' | ⟨b, hb'⟩
    · exact hsub a' ha'
    · rw [(busy_eq hb').1]
      exact hmem

/-- The loop of a probe ends. -/
theorem TraceOk.finish (h : TraceOk n s) (hbusy : s.busy = some (a, b)) (hend : n ≤ b.next) :
    TraceOk n { s with busy := none } := by
  refine ⟨h.below, h.inj, h.logged, fun _ _ hb => (by cases hb), fun a' ha' hs _ j hj => ?_,
    fun _ _ hb => (by cases hb), fun _ _ hb => (by cases hb), fun a' ha' => ?_⟩
  · by_cases hpost : ∀ b', s.busy = some (a', b') → b'.call.isPost = true
    · exact h.complete a' ha' hs hpost j hj
    · simp only [not_forall] at hpost
      obtain ⟨b', hb', hne⟩ := hpost
      rw [hbusy] at hb'
      cases hb'
      exact (h.entering a b hbusy (by simpa using hne)).2.2 j (by omega)
  · rcases ha' with ha' | ⟨b, hb⟩
    · exact h.unseen a' (.inl ha')
    · cases hb

/-- A record is stored. -/
theorem TraceOk.store (h : TraceOk n s) (hbusy : s.busy = some (a, b)) (r : ProfRecord)
    (g : Proc) :
    TraceOk n { s with
      proc := g
      busy := some (a, { b with next := b.next + 1 })
      log := s.log ++ [⟨a.ident, b.call.isPost, b.next, r⟩] } := by
  refine ⟨h.below, h.inj, fun x hx => ?_, fun a' b' hb => ?_, fun a' ha' hs hpost j hj => ?_,
    fun a' b' hb hpost => ?_, fun a' b' hb hpost hs j hj => ?_, fun a' ha' hs x hx e => ?_⟩
  · rcases List.mem_append.1 hx with hx | hx
    · exact h.logged x hx
    · rw [List.mem_singleton] at hx
      subst hx
      exact h.busy a b hbusy
  · cases hb
    exact h.busy a b hbusy
  · refine (h.complete a' ha' hs (fun b' hb' => ?_) j hj).append
    rw [hbusy] at hb'
    cases hb'
    exact hpost { b with next := b.next + 1 } rfl
  · cases hb
    obtain ⟨hmem, hseen, hent⟩ := h.entering a b hbusy hpost
    refine ⟨hmem, hseen, fun j hj => ?_⟩
    have hj' : j < b.next + 1 := hj
    by_cases hlast : j = b.next
    · subst hlast
      exact ⟨_, List.mem_append_right _ (List.mem_singleton_self _), rfl, hpost, rfl⟩
    · exact (hent j (by omega)).append
  · cases hb
    exact (h.leaving a b hbusy hpost hs j hj).append
  · have ha0 : a' ∈ s.stack ∨ ∃ b', s.busy = some (a', b') := by
      rcases ha' with ha' | ⟨b', hb⟩
      · exact .inl ha'
      · cases hb
        exact .inr ⟨b, hbusy⟩
    rcases List.mem_append.1 hx with hx | hx
    · exact h.unseen a' ha0 hs x hx e
    · rw [List.mem_singleton] at hx
      subst hx
      -- an entry record is one of an activation that was seen
      by_contra hpost
      obtain ⟨hmem, hseen, -⟩ := h.entering a b hbusy (by simpa using hpost)
      have haa : a' = a := by
        rcases ha0 with ha' | ⟨b', hb⟩
        · exact h.inj a' ha' a hmem e.symm
        · rw [hbusy] at hb
          cases hb
          rfl
      rw [haa, hseen] at hs
      cases hs

/-- An exit record is matched exactly when its activation was seen. -/
theorem TraceOk.matched (h : TraceOk n s) (hbusy : s.busy = some (a, b)) (hnext : b.next < n)
    (r : ProfRecord) :
    WellNested (s.log ++ [⟨a.ident, b.call.isPost, b.next, r⟩]) ↔
      WellNested s.log ∧ (b.call.isPost = true → a.seen = true) := by
  rw [wellNested_snoc]
  refine and_congr_right fun _ => forall_congr' fun hpost => ?_
  constructor
  · rintro ⟨y, hy, hact, hentry, -⟩
    by_contra hseen
    have hexit := h.unseen a (.inr ⟨b, hbusy⟩) (by simpa using hseen) y hy hact
    rw [hentry] at hexit
    cases hexit
  · exact fun hseen => h.leaving a b hbusy hpost hseen b.next hnext

end

/-! ## The slot -/

/-- The slot has a list, and its events can be read. -/
def Listed (t : ProfTinfo) : Prop :=
  t.evlist ≠ none ∧ ∀ e ∈ t.events, Coupled e

theorem Listed.congr {t t' : ProfTinfo} (h : Listed t) (he : t'.evlist = t.evlist) : Listed t' := by
  refine ⟨by rw [he]; exact h.1, ?_⟩
  rw [ProfTinfo.events_congr he]
  exact h.2

/-- What a store of the record `r` does to a slot. -/
structure StoredIn (t : ProfTinfo) (r : ProfRecord) (t' : ProfTinfo) : Prop where
  tid : t'.tid = t.tid
  state : t'.state = t.state
  evlist : t'.evlist = t.evlist
  file : t'.outputFile = none ↔ t.outputFile = none
  room : t'.nbRecord < profRecordCache
  count : t.outputFile = none → t'.nbRecord = t.nbRecord + 1
  stream : t'.stream = t.stream ++ recordBytes [r]

section

variable {t : ProfTinfo} {e : ProfEvsel}

theorem readEvent_storedIn (hc : Coupled e) (hroom : t.nbRecord < profRecordCache)
    (hfile : t.outputFile = none → t.nbRecord + 1 < profRecordCache) (c : ProbeCall)
    (samples : Nat → PmcSample) (i : Nat) (os : Os) :
    ∃ t' os', readEvent c i e (samples i) t os = .ok (t', os') ∧
      StoredIn t (c.recordOf samples i e) t' := by
  have hbuf := buffer_store t (c.recordOf samples i e)
  simp only [readEvent, hc.rdpmc_eq, hroom, ↓reduceIte]
  by_cases hfull : t.nbRecord + 1 = profRecordCache
  · cases hf : t.outputFile with
    | none =>
      have hlt := hfile hf
      omega
    | some f =>
      have hpos : 0 < profRecordCache := by decide
      simp only [hfull, ↓reduceIte, Os.fwrite]
      rw [hfull, hf] at hbuf
      refine ⟨_, _, rfl, rfl, rfl, rfl, by simp [hf], hpos, fun hn => ?_, ?_⟩
      · rw [hf] at hn
        cases hn
      · simp only [ProfTinfo.stream, hf]
        rw [show c.record i (evselCount e (samples i)) = c.recordOf samples i e from rfl, hbuf]
        simp [ProfTinfo.buffer]
  · simp only [hfull, ↓reduceIte]
    refine ⟨_, os, rfl, rfl, rfl, rfl, Iff.rfl, ?_, fun _ => rfl, ?_⟩
    · simp only
      omega
    · simp only [ProfTinfo.stream]
      rw [show c.record i (evselCount e (samples i)) = c.recordOf samples i e from rfl, hbuf]
      simp

/-- The flush of a full buffer through a NULL handle. -/
theorem readEvent_nullFile (hc : Coupled e) (hnone : t.outputFile = none)
    (hfull : t.nbRecord + 1 = profRecordCache) (c : ProbeCall) (s : PmcSample) (i : Nat)
    (os : Os) : readEvent c i e s t os = .error .nullFile := by
  have hroom : t.nbRecord < profRecordCache := by omega
  simp only [readEvent, hc.rdpmc_eq, hroom, ↓reduceIte, hfull, hnone]

end

/-! ## The invariant -/

structure PubOk (tid : Int) (id : Fin profThreadMax) (s : PubSt) : Prop where
  others : ∀ j, j ≠ id → (s.proc.slot j).tid ≠ tid
  heeds : s.tls.isIgnore = false
  cached : ∀ i, s.tls.threadinfo = some i → i = id
  early : s.pc.early = true →
    (s.proc.slot id).state ≠ .running ∧ s.busy = none ∧ ∀ a ∈ s.stack, a.seen = false
  unopened : s.pc.early = true ∨ s.pc = .file → (s.proc.slot id).outputFile = none
  evlistPc : ∀ l, s.pc = .evlist l → ∀ e ∈ l.entries, Coupled e
  runningPc : s.pc = .running → Listed (s.proc.slot id)
  running : (s.proc.slot id).state = .running → Listed (s.proc.slot id)
  busy : ∀ a b, s.busy = some (a, b) → b.slot = id ∧ Listed (s.proc.slot id)
  room : (s.proc.slot id).nbRecord < profRecordCache
  count : (s.proc.slot id).outputFile = none → (s.proc.slot id).nbRecord = s.log.length
  stream : (s.proc.slot id).stream = recordBytes (s.log.map (·.record))
  trace : TraceOk (s.proc.slot id).events.length s

section

variable {tid : Int} {id : Fin profThreadMax} {s : PubSt} {g : Proc} {pc : Pc}

theorem pubOk_start (h : NewThread g tid id) : PubOk tid id (.start g) := by
  obtain ⟨old, he⟩ := h.empty
  have hslot : (PubSt.start g).proc.slot id = .empty old := he
  refine ⟨fun j _ => h.fresh j, rfl, fun i hi => (by cases hi), fun _ => ?_, fun _ => ?_,
    fun l hl => (by cases hl), fun hr => (by cases hr), fun hr => ?_, fun a b hb => (by cases hb),
    ?_, fun _ => ?_, ?_, ?_⟩
  · refine ⟨?_, rfl, fun a ha => (by cases ha)⟩
    rw [hslot]
    simp [ProfTinfo.empty, ProfTinfo.initial]
  · rw [hslot]
    rfl
  · rw [hslot] at hr
    cases hr
  · rw [hslot]
    show 0 < profRecordCache
    decide
  · rw [hslot]
    rfl
  · rw [hslot]
    rfl
  · exact ⟨fun a ha => (by cases ha), fun a ha => (by cases ha), fun x hx => (by cases hx),
      fun a b hb => (by cases hb), fun a ha => (by cases ha), fun a b hb => (by cases hb),
      fun a b hb => (by cases hb), fun a ha _ x hx => (by cases hx)⟩

/-- A store of the registrar. What it does to the slot is left to the caller. -/
theorem PubOk.stored (h : PubOk tid id s) (hne : ∀ j, j ≠ id → g.slot j = s.proc.slot j)
    (hearly : pc.early = true → s.pc.early = true ∧ (g.slot id).state ≠ .running)
    (hunopened : pc.early = true ∨ pc = .file → (g.slot id).outputFile = none)
    (hevlist : ∀ l, pc = .evlist l → ∀ e ∈ l.entries, Coupled e)
    (hrunning : pc = .running ∨ (g.slot id).state = .running → Listed (g.slot id))
    (hlist : (g.slot id).evlist = (s.proc.slot id).evlist ∨ s.pc.early = true)
    (hnb : (g.slot id).nbRecord = (s.proc.slot id).nbRecord)
    (hfile : (g.slot id).outputFile = none → (s.proc.slot id).outputFile = none)
    (hstream : (g.slot id).stream = (s.proc.slot id).stream) :
    PubOk tid id { s with proc := g, pc := pc } := by
  refine ⟨fun j hj => ?_, h.heeds, h.cached, fun hp => ?_, hunopened, hevlist,
    fun hp => hrunning (.inl hp), fun hr => hrunning (.inr hr), fun a b hb => ?_, ?_, fun hf => ?_,
    hstream.trans h.stream, ?_⟩
  · rw [hne j hj]
    exact h.others j hj
  · exact ⟨(hearly hp).2, (h.early (hearly hp).1).2⟩
  · obtain ⟨hslot, hl⟩ := h.busy a b hb
    refine ⟨hslot, ?_⟩
    rcases hlist with hl' | hp
    · exact hl.congr hl'
    · rw [(h.early hp).2.1] at hb
      cases hb
  · rw [hnb]
    exact h.room
  · rw [hnb]
    exact h.count (hfile hf)
  · rcases hlist with hl' | hp
    · rw [ProfTinfo.events_congr hl']
      obtain ⟨t1, t2, t3, t4, t5, t6, t7, t8⟩ := h.trace
      exact ⟨t1, t2, t3, t4, t5, t6, t7, t8⟩
    · obtain ⟨-, hbusy, hseen⟩ := h.early hp
      obtain ⟨t1, t2, t3, t4, t5, t6, t7, t8⟩ :=
        h.trace.early hseen hbusy (g.slot id).events.length
      exact ⟨t1, t2, t3, t4, t5, t6, t7, t8⟩

/-- A store up to that of `state`. -/
theorem PubOk.storedEarly (h : PubOk tid id s) (hp : s.pc.early = true)
    (hne : ∀ j, j ≠ id → g.slot j = s.proc.slot j)
    (hearly : pc.early = true → (g.slot id).state ≠ .running)
    (hevlist : ∀ l, pc = .evlist l → ∀ e ∈ l.entries, Coupled e)
    (hrunning : pc = .running ∨ (g.slot id).state = .running → Listed (g.slot id))
    (hnb : (g.slot id).nbRecord = (s.proc.slot id).nbRecord)
    (hfile : (g.slot id).outputFile = (s.proc.slot id).outputFile)
    (hstream : (g.slot id).stream = (s.proc.slot id).stream) :
    PubOk tid id { s with proc := g, pc := pc } :=
  h.stored hne (fun he => ⟨hp, hearly he⟩) (fun _ => hfile.trans (h.unopened (.inl hp))) hevlist
    hrunning (.inr hp) hnb (fun hf => hfile.symm.trans hf) hstream

/-- A store after `fopen`, or the one of its result. -/
theorem PubOk.storedLate (h : PubOk tid id s) (hne : ∀ j, j ≠ id → g.slot j = s.proc.slot j)
    (hpc : pc = .noFile ∨ pc = .finish ∨ pc = .done)
    (hrunning : (g.slot id).state = .running → (s.proc.slot id).state = .running)
    (hlist : (g.slot id).evlist = (s.proc.slot id).evlist)
    (hnb : (g.slot id).nbRecord = (s.proc.slot id).nbRecord)
    (hfile : (g.slot id).outputFile = none → (s.proc.slot id).outputFile = none)
    (hstream : (g.slot id).stream = (s.proc.slot id).stream) :
    PubOk tid id { s with proc := g, pc := pc } := by
  have hl : (g.slot id).state = .running → Listed (g.slot id) :=
    fun hr => (h.running (hrunning hr)).congr hlist
  rcases hpc with rfl | rfl | rfl
  all_goals
    refine h.stored hne (fun he => (by cases he)) ?_ (fun l hl => (by cases hl)) ?_ (.inl hlist) hnb
      hfile hstream
    · exact fun hr => hr.elim (fun hr => (by cases hr)) fun hr => (by cases hr)
    · exact fun hr => hr.elim (fun hr => (by cases hr)) hl

theorem slot_store_self (g : Proc) (id : Fin profThreadMax) (f : ProfTinfo → ProfTinfo) :
    (g.store id f).slot id = f (g.slot id) :=
  Proc.slot_setSlot_self g id _

theorem slot_store_ne (g : Proc) {i j : Fin profThreadMax} (f : ProfTinfo → ProfTinfo)
    (h : j ≠ i) : (g.store i f).slot j = g.slot j :=
  Proc.slot_setSlot_ne g _ h

/-- `__create_evlist` fails, or is about to store a list with coupled events only. -/
theorem registrar_create_pc (tid : Int) (id : Fin profThreadMax) (g : Proc) :
    (registrar tid id g .create).2 = .failed ∨
      ∃ l, (registrar tid id g .create).2 = .evlist l ∧ ∀ e ∈ l.entries, Coupled e := by
  obtain ⟨-, hcase⟩ := createEvlist_spec g.info (g.slot id) g.os
  simp only [registrar]
  generalize createEvlist g.info (g.slot id) g.os = r at hcase ⊢
  obtain ⟨ret, t, os⟩ := r
  simp only at hcase ⊢
  rcases hcase with ⟨rfl, rfl⟩ | ⟨rfl, l, hl, rfl⟩
  · exact .inl rfl
  · exact .inr ⟨l, rfl, hl⟩

/-- The store of `output_file`. -/
theorem PubOk.file (h : PubOk tid id s) (hpc : s.pc = .file) :
    PubOk tid id { s with
      proc := (registrar tid id s.proc .file).1, pc := (registrar tid id s.proc .file).2 } := by
  have hnone := h.unopened (.inr hpc)
  have hself : ∀ (os : Os) (t : ProfTinfo),
      ({ s.proc.setSlot id t with os := os } : Proc).slot id = t :=
    fun _ t => Proc.slot_setSlot_self s.proc id t
  -- nothing was written yet, and a new file is empty
  have hstream : ∀ f : Option OutFile, (∀ f', f = some f' → f'.data = []) →
      ProfTinfo.stream { s.proc.slot id with outputFile := f } = (s.proc.slot id).stream := by
    intro f hf
    unfold ProfTinfo.stream
    rw [hnone]
    cases f with
    | none => rfl
    | some f =>
      simp only [hf f rfl]
      rfl
  rcases fopen_cases s.proc.os (outfile (s.proc.slot id).tid) with ⟨os, ho, -⟩ | ⟨os, ho, -⟩
  · rw [registrar_file ho]
    refine h.storedLate (fun j hj => Proc.slot_setSlot_ne _ _ hj) (.inr (.inl rfl)) ?_ ?_ ?_ ?_ ?_
    all_goals rw [hself]
    · exact fun hr => hr
    · exact fun _ => hnone
    · refine hstream _ fun f' hf' => ?_
      cases hf'
      rfl
  · rw [registrar_file ho]
    refine h.storedLate (fun j hj => Proc.slot_setSlot_ne _ _ hj) (.inl rfl) ?_ ?_ ?_ ?_ ?_
    all_goals rw [hself]
    · exact fun hr => hr
    · exact fun _ => hnone
    · exact hstream none fun f' hf' => (by cases hf')

/-- The end of `__create_evlist`, up to its stores. -/
theorem PubOk.create (h : PubOk tid id s) (hpc : s.pc = .create) :
    PubOk tid id { s with
      proc := (registrar tid id s.proc .create).1, pc := (registrar tid id s.proc .create).2 } := by
  have hp : s.pc.early = true := by rw [hpc]; rfl
  refine h.storedEarly hp (fun _ _ => rfl) (fun _ => (h.early hp).1) (fun l hl => ?_) ?_ rfl rfl rfl
  · rcases registrar_create_pc tid id s.proc with he | ⟨l', he, hl'⟩
    · rw [he] at hl
      cases hl
    · rw [he] at hl
      cases hl
      exact hl'
  · rintro (hr | hr)
    · rcases registrar_create_pc tid id s.proc with he | ⟨l', he, -⟩
      · rw [he] at hr
        cases hr
      · rw [he] at hr
        cases hr
    · exact absurd hr (h.early hp).1

/-- **A store of the registrar** keeps the invariant. -/
theorem PubOk.registrar (h : PubOk tid id s) (hdone : s.pc ≠ .done) :
    PubOk tid id { s with
      proc := (registrar tid id s.proc s.pc).1, pc := (registrar tid id s.proc s.pc).2 } := by
  cases hpc : s.pc with
  | tid =>
    have hp : s.pc.early = true := by rw [hpc]; rfl
    refine h.storedEarly hp (fun j hj => slot_store_ne _ _ hj) ?_ (fun l hl => (by cases hl))
      ?_ ?_ ?_ ?_
    all_goals simp only [Probe.registrar, slot_store_self]
    · exact fun _ => (h.early hp).1
    · exact fun hr => hr.elim (fun hr => (by cases hr)) fun hr => absurd hr (h.early hp).1
    · rfl
  | create => exact h.create hpc
  | evlist l =>
    have hp : s.pc.early = true := by rw [hpc]; rfl
    refine h.storedEarly hp (fun j hj => slot_store_ne _ _ hj) ?_ (fun l hl => (by cases hl))
      ?_ ?_ ?_ ?_
    all_goals simp only [Probe.registrar, slot_store_self]
    · exact fun _ => (h.early hp).1
    · exact fun _ => ⟨by simp, h.evlistPc l hpc⟩
    · rfl
  | running =>
    have hp : s.pc.early = true := by rw [hpc]; rfl
    refine h.storedEarly hp (fun j hj => slot_store_ne _ _ hj) (fun he => (by cases he))
      (fun l hl => (by cases hl)) ?_ ?_ ?_ ?_
    all_goals simp only [Probe.registrar, slot_store_self]
    · exact fun _ => (h.runningPc hpc).congr rfl
    · rfl
  | failed =>
    have hp : s.pc.early = true := by rw [hpc]; rfl
    refine h.storedEarly hp (fun j hj => slot_store_ne _ _ hj) (fun he => (by cases he))
      (fun l hl => (by cases hl)) ?_ ?_ ?_ ?_
    all_goals simp only [Probe.registrar, slot_store_self]
    · exact fun hr => hr.elim (fun hr => (by cases hr)) fun hr => (by cases hr)
    · rfl
  | file => exact h.file hpc
  | noFile =>
    refine h.storedLate (fun j hj => slot_store_ne _ _ hj) (.inr (.inl rfl)) ?_ ?_ ?_ ?_ ?_
    all_goals simp only [Probe.registrar, slot_store_self]
    · exact fun hr => (by cases hr)
    · exact fun hf => hf
    · rfl
  | finish =>
    have hslot : ∀ j, (Probe.registrar tid id s.proc .finish).1.slot j = s.proc.slot j := by
      intro j
      simp only [Probe.registrar, Proc.slot]
      rw [updateThreadnid_eq]
    refine h.storedLate (fun j _ => hslot j) (.inr (.inr rfl)) ?_ ?_ ?_ ?_ ?_
    all_goals rw [hslot]
    · exact fun hr => hr
    · exact fun hf => hf
  | done => exact absurd hpc hdone

/-- A probe looks at the new slot. -/
theorem PubOk.enterProbe_eq (h : PubOk tid id s) (hfound : s.Found tid) :
    ∃ tls : Tls, tls.isIgnore = false ∧ tls.threadinfo = some id ∧
      enterProbe tid s.tls s.proc.info =
        (tls, if (s.proc.slot id).state = .running then some id else none) := by
  rcases enterProbe_cases tid s.tls s.proc.info with
    ⟨hig, -⟩ | ⟨-, hti, hf, -⟩ | ⟨i, tls, -, hig, hti, hfrom, he⟩
  · rw [h.heeds] at hig
    cases hig
  · exact absurd hf (hfound hti)
  · have hi : i = id := by
      rcases hfrom with hc | ⟨-, hf⟩
      · exact h.cached i hc
      · by_contra hne
        exact h.others i hne (findTinfo_eq_some.1 hf).1
    subst hi
    exact ⟨tls, hig, hti, he⟩

/-- The probe of activation `a` that `tls` and `stack` are left by. -/
theorem PubOk.probe (h : PubOk tid id s) {tls : Tls} (hig : tls.isIgnore = false)
    (hti : tls.threadinfo = some id) {stack : List Activation} {next : Nat} {a : Activation}
    {call : Option CallSt}
    (hcall : ∀ b, call = some b → b.slot = id ∧ (s.proc.slot id).state = .running)
    (hseen : call = none → ∀ a' ∈ stack, a'.seen = true → a' ∈ s.stack)
    (htrace : TraceOk (s.proc.slot id).events.length
      { s with tls := tls, stack := stack, next := next, busy := call.map fun b => (a, b) }) :
    PubOk tid id
      { s with tls := tls, stack := stack, next := next, busy := call.map fun b => (a, b) } := by
  refine ⟨h.others, hig, fun i hi => ?_, fun hp => ?_, h.unopened, h.evlistPc, h.runningPc,
    h.running, fun a' b hb => ?_, h.room, h.count, h.stream, htrace⟩
  · rw [hti] at hi
    exact (Option.some.inj hi).symm
  · obtain ⟨hnot, -, hold⟩ := h.early hp
    have hnone : call = none := by
      cases hc : call with
      | none => rfl
      | some b => exact absurd (hcall b hc).2 hnot
    refine ⟨hnot, by rw [hnone]; rfl, fun a' ha' => ?_⟩
    by_contra hs
    have hs' : a'.seen = true := by simpa using hs
    rw [hold a' (hseen hnone a' ha' hs')] at hs'
    cases hs'
  · obtain ⟨hslot, hrun⟩ := hcall b (busy_eq hb).2
    exact ⟨hslot, h.running hrun⟩

/-- The call of `__read_count` that a probe makes on the new slot, if it is RUNNING. -/
def slotCall (t : ProfTinfo) (id : Fin profThreadMax) (c : ProbeCall)
    (samples : Nat → PmcSample) : Option CallSt :=
  if t.state = .running then some ⟨c, samples, id, 0⟩ else none

theorem slotCall_eq {t : ProfTinfo} {c : ProbeCall} {samples : Nat → PmcSample} {b : CallSt}
    (h : slotCall t id c samples = some b) : t.state = .running ∧ b = ⟨c, samples, id, 0⟩ := by
  unfold slotCall at h
  split at h
  · rename_i hrun
    exact ⟨hrun, (Option.some.inj h).symm⟩
  · cases h

/-- A probe up to the loop of `__read_count`. -/
theorem PubOk.probe_eq (h : PubOk tid id s) (hfound : s.Found tid) (c : ProbeCall)
    (samples : Nat → PmcSample) :
    ∃ tls : Tls, tls.isIgnore = false ∧ tls.threadinfo = some id ∧
      (enterProbe tid s.tls s.proc.info).2.isSome =
        (slotCall (s.proc.slot id) id c samples).isSome ∧
      ∀ a, s.probe tid a c samples = { s with
        tls := tls
        busy := (slotCall (s.proc.slot id) id c samples).map fun b => (a, b) } := by
  obtain ⟨tls, hig, hti, he⟩ := h.enterProbe_eq hfound
  refine ⟨tls, hig, hti, ?_, fun a => ?_⟩
  · rw [he]
    unfold slotCall
    dsimp only
    split <;> rfl
  · unfold PubSt.probe slotCall
    rw [he]
    dsimp only
    split <;> rfl

theorem PubOk.entry (h : PubOk tid id s) (hbusy : s.busy = none) (hfound : s.Found tid)
    (func : BitVec 32) (cyc : BitVec 64) (samples : Nat → PmcSample) :
    ∃ s', (pubMachine tid id).step s (.entry func cyc samples) = .ok s' ∧ PubOk tid id s' ∧
      s'.log = s.log := by
  obtain ⟨tls, hig, hti, hsome, hprobe⟩ := h.probe_eq hfound ⟨func, false, cyc⟩ samples
  refine ⟨_, rfl, ?_, rfl⟩
  rw [hsome, hprobe]
  refine h.probe hig hti (fun b hb => ?_) (fun hnone a ha hs => ?_) ?_
  · obtain ⟨hrun, rfl⟩ := slotCall_eq hb
    exact ⟨rfl, hrun⟩
  · rcases List.mem_cons.1 ha with rfl | ha
    · rw [hnone] at hs
      cases hs
    · exact ha
  · refine h.trace.entry hbusy func _ (fun b hb => ?_) tls
    obtain ⟨-, rfl⟩ := slotCall_eq hb
    exact ⟨rfl, rfl⟩

theorem PubOk.exit (h : PubOk tid id s) (hbusy : s.busy = none) (hfound : s.Found tid)
    (hne : s.stack ≠ []) (cyc : BitVec 64) (samples : Nat → PmcSample) :
    ∃ s', (pubMachine tid id).step s (.exit cyc samples) = .ok s' ∧ PubOk tid id s' ∧
      s'.log = s.log := by
  obtain ⟨a, stack, hstack⟩ := List.exists_cons_of_ne_nil hne
  obtain ⟨tls, hig, hti, -, hprobe⟩ := h.probe_eq hfound ⟨a.func, true, cyc⟩ samples
  refine ⟨{ s.probe tid a ⟨a.func, true, cyc⟩ samples with stack := stack },
    by simp only [pubMachine, hstack], ?_, rfl⟩
  rw [hprobe]
  refine h.probe hig hti (fun b hb => ?_) (fun _ a' ha' _ => ?_) ?_
  · obtain ⟨hrun, rfl⟩ := slotCall_eq hb
    exact ⟨rfl, hrun⟩
  · rw [hstack]
    exact List.mem_cons_of_mem _ ha'
  · refine h.trace.exit hbusy hstack _ (fun b hb => ?_) tls
    obtain ⟨-, rfl⟩ := slotCall_eq hb
    rfl

/-- A record is stored in the new slot. -/
theorem PubOk.store {a : Activation} {b : CallSt} {t : ProfTinfo} {r : ProfRecord}
    (h : PubOk tid id s) (hbusy : s.busy = some (a, b))
    (hst : StoredIn (s.proc.slot id) r t) (os : Os) :
    PubOk tid id { s with
      proc := { s.proc.setSlot id t with os := os }
      busy := some (a, { b with next := b.next + 1 })
      log := s.log ++ [⟨a.ident, b.call.isPost, b.next, r⟩] } := by
  have hself : ({ s.proc.setSlot id t with os := os } : Proc).slot id = t :=
    Proc.slot_setSlot_self s.proc id t
  have hevents := ProfTinfo.events_congr hst.evlist
  have hlisted : Listed (s.proc.slot id) → Listed t := fun hl => hl.congr hst.evlist
  have hnot : ¬ s.pc.early = true := by
    intro hp
    rw [(h.early hp).2.1] at hbusy
    cases hbusy
  refine ⟨fun j hj => ?_, h.heeds, h.cached, fun hp => absurd hp hnot, ?_, h.evlistPc, fun hp => ?_,
    ?_, fun a' b' hb => ?_, ?_, ?_, ?_, ?_⟩
  · rw [show ({ s.proc.setSlot id t with os := os } : Proc).slot j = s.proc.slot j from
      Proc.slot_setSlot_ne s.proc t hj]
    exact h.others j hj
  · rw [hself, hst.file]
    exact h.unopened
  · rw [hself]
    exact hlisted (h.runningPc hp)
  · rw [hself, hst.state]
    exact fun hr => hlisted (h.running hr)
  · cases hb
    obtain ⟨hslot, hl⟩ := h.busy a b hbusy
    rw [hself]
    exact ⟨hslot, hlisted hl⟩
  · rw [hself]
    exact hst.room
  · rw [hself, hst.file]
    intro hnone
    rw [hst.count hnone, h.count hnone, List.length_append, List.length_singleton]
  · rw [hself, hst.stream, h.stream, ← recordBytes_append, List.map_append]
    rfl
  · rw [hself, hevents]
    exact h.trace.store hbusy r _

/-- The loop of a probe is over. -/
theorem PubOk.finish {a : Activation} {b : CallSt} (h : PubOk tid id s)
    (hbusy : s.busy = some (a, b)) (hend : (s.proc.slot id).events.length ≤ b.next) :
    PubOk tid id { s with busy := none } :=
  ⟨h.others, h.heeds, h.cached, fun hp => ⟨(h.early hp).1, rfl, (h.early hp).2.2⟩, h.unopened,
    h.evlistPc, h.runningPc, h.running, fun _ _ hb => (by cases hb), h.room, h.count, h.stream,
    h.trace.finish hbusy hend⟩

/-- A round of the loop ends it, or stores a record; without a file the record must not be the one
that fills the buffer. -/
theorem PubOk.round {a : Activation} {b : CallSt} (h : PubOk tid id s)
    (hbusy : s.busy = some (a, b)) :
    ((s.proc.slot id).events.length ≤ b.next ∧
      s.round a b = .ok { s with busy := none }) ∨
    (b.next < (s.proc.slot id).events.length ∧
      if (s.proc.slot id).outputFile = none ∧ profRecordCache ≤ s.log.length + 1 then
        s.round a b = .error .nullFile
      else ∃ s' r, s.round a b = .ok s' ∧ PubOk tid id s' ∧
        s'.log = s.log ++ [⟨a.ident, b.call.isPost, b.next, r⟩]) := by
  obtain ⟨rfl, hlist⟩ := h.busy a b hbusy
  obtain ⟨l, hl⟩ := Option.ne_none_iff_exists'.1 hlist.1
  rw [ProfTinfo.events_some hl]
  cases hnext : l.entries[b.next]? with
  | none =>
    left
    exact ⟨List.getElem?_eq_none_iff.1 hnext, by simp only [PubSt.round, hl, hnext]⟩
  | some e =>
    right
    have hc : Coupled e := by
      refine hlist.2 e ?_
      rw [ProfTinfo.events_some hl]
      exact List.mem_of_getElem? hnext
    refine ⟨(List.getElem?_eq_some_iff.1 hnext).1, ?_⟩
    have hroom := h.room
    split
    · rename_i hfull
      have hcount := h.count hfull.1
      simp only [PubSt.round, hl, hnext, readEvent_nullFile hc hfull.1 (by omega)]
    · rename_i hfull
      have hfile : (s.proc.slot b.slot).outputFile = none →
          (s.proc.slot b.slot).nbRecord + 1 < profRecordCache := by
        intro hnone
        rw [h.count hnone]
        by_contra hle
        exact hfull ⟨hnone, by omega⟩
      obtain ⟨t, os, hr, hst⟩ := readEvent_storedIn hc hroom hfile b.call b.samples b.next s.proc.os
      exact ⟨_, _, by simp only [PubSt.round, hl, hnext, hr], h.store hbusy hst os, rfl⟩

/-- What a step of the machine can do. -/
theorem pubMachine_step {step : PubStep} (h : PubOk tid id s)
    (hen : (pubMachine tid id).Enabled s step) :
    (∃ s', (pubMachine tid id).step s step = .ok s' ∧ PubOk tid id s' ∧ s'.log = s.log ∧
      ∀ a b, ¬ Stores s step a b) ∨
    ∃ a b, Stores s step a b ∧
      if (s.proc.slot b.slot).outputFile = none ∧ profRecordCache ≤ s.log.length + 1 then
        (pubMachine tid id).step s step = .error .nullFile
      else ∃ s' r, (pubMachine tid id).step s step = .ok s' ∧ PubOk tid id s' ∧
        s'.log = s.log ++ [⟨a.ident, b.call.isPost, b.next, r⟩] := by
  cases step with
  | store => exact .inl ⟨_, rfl, h.registrar hen, rfl, fun a b hs => (by cases hs.1)⟩
  | entry func cyc samples =>
    obtain ⟨s', hs, hok, hlog⟩ := h.entry hen.1 hen.2 func cyc samples
    exact .inl ⟨s', hs, hok, hlog, fun a b hs => (by cases hs.1)⟩
  | exit cyc samples =>
    obtain ⟨s', hs, hok, hlog⟩ := h.exit hen.1 hen.2.1 hen.2.2 cyc samples
    exact .inl ⟨s', hs, hok, hlog, fun a b hs => (by cases hs.1)⟩
  | event =>
    obtain ⟨⟨a, b⟩, hbusy⟩ := Option.ne_none_iff_exists'.1 hen
    obtain ⟨hslot, -⟩ := h.busy a b hbusy
    have hstep : (pubMachine tid id).step s .event = s.round a b := by
      simp only [pubMachine, hbusy]
    rw [hstep]
    rcases h.round hbusy with ⟨hend, hround⟩ | ⟨hlt, hround⟩
    · refine .inl ⟨_, hround, h.finish hbusy hend, rfl, fun a' b' hs => ?_⟩
      obtain ⟨-, hb, hlt⟩ := hs
      rw [hbusy] at hb
      cases hb
      rw [hslot] at hlt
      omega
    · rw [← hslot] at hlt hround
      exact .inr ⟨a, b, ⟨rfl, hbusy, hlt⟩, by rwa [hslot] at hround ⊢⟩

/-- A step stores for one call. -/
theorem Stores.unique {step : PubStep} {a a' : Activation} {b b' : CallSt}
    (hst : Stores s step a b) (hst' : Stores s step a' b') : a' = a ∧ b' = b := by
  obtain ⟨-, hb, -⟩ := hst
  obtain ⟨-, hb', -⟩ := hst'
  rw [hb] at hb'
  cases hb'
  exact ⟨rfl, rfl⟩

theorem Stores.matched_iff {step : PubStep} {a : Activation} {b : CallSt}
    (hst : Stores s step a b) : Matched s step ↔ (b.call.isPost = true → a.seen = true) := by
  refine ⟨fun hm => hm a b hst, fun hm a' b' hst' => ?_⟩
  obtain ⟨rfl, rfl⟩ := hst.unique hst'
  exact hm

theorem Stores.room_iff {step : PubStep} {a : Activation} {b : CallSt}
    (hst : Stores s step a b) : Room s step ↔
      ¬ ((s.proc.slot b.slot).outputFile = none ∧ profRecordCache ≤ s.log.length + 1) := by
  refine ⟨fun hr hf => absurd (hr a b hst hf.1) (by omega), fun hr a' b' hst' hf => ?_⟩
  obtain ⟨rfl, rfl⟩ := hst.unique hst'
  by_contra hle
  exact hr ⟨hf, by omega⟩

/-- **Publication, from any state that satisfies the invariant.** -/
theorem published_iff_of_pubOk {acts : List PubStep} (h : PubOk tid id s)
    (hl : (pubMachine tid id).Legal s acts) :
    (∃ s', (pubMachine tid id).run s acts = .ok s' ∧ WellNested s'.log) ↔
      WellNested s.log ∧ (pubMachine tid id).AtEach s acts fun s a => Matched s a ∧ Room s a := by
  induction acts generalizing s with
  | nil =>
    constructor
    · rintro ⟨s', hs, hwn⟩
      cases hs
      exact ⟨hwn, Machine.atEach_nil⟩
    · exact fun hwn => ⟨s, rfl, hwn.1⟩
  | cons act acts ih =>
    rw [Machine.atEach_cons]
    rcases pubMachine_step h hl.1 with ⟨t, ht, hok, hlog, hno⟩ | ⟨a, b, hst, hcase⟩
    · -- a step that stores nothing
      have hquiet : Matched s act ∧ Room s act :=
        ⟨fun a b hs => absurd hs (hno a b), fun a b hs => absurd hs (hno a b)⟩
      rw [Machine.run_cons_ok ht, ih hok (hl.2 t ht), hlog]
      simp only [ht, Except.ok.injEq, forall_eq', hquiet, true_and]
    · -- a step that stores a record
      obtain ⟨hslot, -⟩ := h.busy a b hst.2.1
      have hnext : b.next < (s.proc.slot id).events.length := by
        rw [← hslot]
        exact hst.2.2
      split at hcase
      · -- the flush through NULL ends the run
        rename_i hfull
        refine iff_of_false ?_ fun hc => hst.room_iff.1 hc.2.1.2 hfull
        rintro ⟨s', hs', -⟩
        rw [Machine.run_cons_eq_ok] at hs'
        obtain ⟨t, ht, -⟩ := hs'
        rw [hcase] at ht
        cases ht
      · rename_i hfull
        obtain ⟨t, r, ht, hok, hlog⟩ := hcase
        rw [Machine.run_cons_ok ht, ih hok (hl.2 t ht), hlog,
          h.trace.matched hst.2.1 hnext r, hst.matched_iff, hst.room_iff]
        simp only [ht, Except.ok.injEq, forall_eq', hfull, not_false_eq_true, and_true, and_assoc]

end

/-- **Publication of a slot.** In every interleaving of the registration of a new thread with the
probes of that thread, no flush goes through NULL and the log is well nested if and only if
whatever exit probe stores a record belongs to an activation whose entry probe found the slot
RUNNING, and fewer than `PROF_RECORD_CACHE` records are stored before `output_file` is. -/
theorem published_iff (g : Proc) (tid : Int) (id : Fin profThreadMax) (h : NewThread g tid id)
    (acts : List PubStep) (hl : (pubMachine tid id).Legal (.start g) acts) :
    (∃ s, (pubMachine tid id).run (.start g) acts = .ok s ∧ WellNested s.log) ↔
      (pubMachine tid id).AtEach (.start g) acts fun s a => Matched s a ∧ Room s a := by
  rw [published_iff_of_pubOk (pubOk_start h) hl]
  refine and_iff_right fun pre x post e => ?_
  cases pre <;> cases e

/-! ## A function that is already running -/

/-- The next slot of any table in order, for a tid that no slot has. -/
theorem newThread_of_slotInv {g : Proc} {tid : Int} {id : Fin profThreadMax} (hs : SlotInv g)
    (ht : TableOk g) (hnid : g.info.threadNid = id) (hfresh : ∀ i, (g.slot i).tid ≠ tid) :
    NewThread g tid id := by
  have hne : g.info.threadNid ≠ uintMax := by
    have hlt : (id : Nat) < 64 := id.isLt
    have hmax : uintMax = 4294967295 := rfl
    omega
  obtain ⟨id', hnid', hnb⟩ := hs.next (hs.lt_of_nid_ne hne)
  have hid : id' = id := Fin.ext (hnid'.symm.trans hnid)
  subst hid
  obtain ⟨old, -, he⟩ := ht.fresh id' (hs.not_mem_inits hnb)
  exact ⟨hnid, ⟨old, he⟩, hfresh⟩

theorem newThread_solo : NewThread soloProc 200 1 := by
  have hok := lprobeInit_ok ⟨by decide, by decide⟩ soloInit_eq
  exact newThread_of_slotInv hok.toSlotInv hok.table rfl (by decide)

theorem legal_store {s : PubSt} {acts : List PubStep} (hpc : s.pc ≠ .done)
    (hl : (pubMachine 200 1).Legal { s with
      proc := (registrar 200 1 s.proc s.pc).1, pc := (registrar 200 1 s.proc s.pc).2 } acts) :
    (pubMachine 200 1).Legal s (.store :: acts) :=
  .cons hpc rfl hl

/-- Thread 200 calls a function once its slot is RUNNING. -/
def lateCall : List PubStep :=
  [.store, .store, .store, .store, .entry 7 1000 fun _ => closedPage, .event, .event, .store,
    .exit 2000 fun _ => closedPage, .event]

theorem legal_lateCall : (pubMachine 200 1).Legal (.start soloProc) lateCall := by
  refine legal_store (fun h => (by cases h)) (legal_store (fun h => (by cases h))
    (legal_store (fun h => (by cases h)) (legal_store (fun h => (by cases h)) ?_)))
  refine .cons ⟨rfl, fun _ => by decide⟩ rfl (.cons (fun h => (by cases h)) rfl
    (.cons (fun h => (by cases h)) rfl (legal_store (fun h => (by cases h)) ?_)))
  exact .cons ⟨rfl, fun h => (by cases h), by simp⟩ rfl (.cons (fun h => (by cases h)) rfl trivial)

theorem published_iff_late :
    (∃ s, (pubMachine 200 1).run (.start soloProc) lateCall = .ok s ∧ WellNested s.log) ↔
      (pubMachine 200 1).AtEach (.start soloProc) lateCall fun s a => Matched s a ∧ Room s a :=
  published_iff soloProc 200 1 newThread_solo lateCall legal_lateCall

/-- Thread 200 calls a function as soon as its tid is stored, and returns from it once the state
is. -/
def earlyCall : List PubStep :=
  [.store, .entry 7 1000 fun _ => closedPage, .store, .store, .store,
    .exit 2000 fun _ => closedPage, .event]

theorem legal_earlyCall : (pubMachine 200 1).Legal (.start soloProc) earlyCall := by
  refine legal_store (fun h => (by cases h)) (.cons ⟨rfl, fun _ => by decide⟩ rfl ?_)
  refine legal_store (fun h => (by cases h)) (legal_store (fun h => (by cases h))
    (legal_store (fun h => (by cases h)) ?_))
  exact .cons ⟨rfl, fun h => (by cases h), by simp⟩ rfl (.cons (fun h => (by cases h)) rfl trivial)

/-- The exit record has no entry record before it. -/
theorem early_exit_unmatched :
    NewThread soloProc 200 1 ∧ (pubMachine 200 1).Legal (.start soloProc) earlyCall ∧
      ¬ ∃ s, (pubMachine 200 1).run (.start soloProc) earlyCall = .ok s ∧ WellNested s.log := by
  refine ⟨newThread_solo, legal_earlyCall, ?_⟩
  rintro ⟨s, hs, hnested⟩
  cases hs
  obtain ⟨y, hy, -⟩ := hnested [] _ [] rfl rfl
  cases hy

end Lprofile.Probe
