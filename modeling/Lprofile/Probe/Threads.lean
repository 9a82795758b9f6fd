import Lprofile.Probe.Table

/-!
# Threads

Threads come and go while the probe library runs. `lprobe_pthread_create` is
two steps of the creator: `HOOK_pthread_create` makes the child runnable
(`create`), then `lprobe_thread_init` registers it (`register`); the child's
probes can fall before, between and after them. A thread that exited gives its
tid back to the kernel, so a `Thread` is one incarnation of a tid, and only live
threads have different tids.

`lprobe_thread_init` reads the tid from the descriptor of the new thread, which
the kernel clears when the thread exits.

No step of this machine faults, and `ThreadsOk` holds in every state
(`threads_run`).
-/

namespace Lprofile.Probe

open Lprofile.Lib

/-- `slot` and `early` are ghosts: the slot the thread's registration took, and whether the
thread made a probe call before it. -/
structure Thread where
  tid : Int
  live : Bool
  registered : Bool
  slot : Option (Fin profThreadMax)
  early : Bool
  tls : Tls

def Thread.created (tid : Int) : Thread := ⟨tid, true, false, none, false, .initial⟩

/-- The tid in the thread's descriptor. -/
def Thread.pid (t : Thread) : Int := if t.live then t.tid else 0

structure ThreadSt where
  proc : Proc
  threads : Nat → Option Thread

def ThreadSt.set (s : ThreadSt) (c : Nat) (t : Thread) (g : Proc) : ThreadSt :=
  ⟨g, Function.update s.threads c (some t)⟩

inductive ThreadStep where
  /-- `HOOK_pthread_create` starts thread `c` -/
  | create (c : Nat) (tid : Int)
  /-- its creator calls `lprobe_thread_init` -/
  | register (c : Nat)
  | probe (c : Nat) (call : ProbeCall) (samples : Nat → PmcSample)
  /-- `lprobe_pthread_exit` -/
  | exit (c : Nat)

def threadMachine : Machine ThreadSt ThreadStep Fault where
  Enabled s
    | .create c tid => s.threads c = none ∧ ValidTid tid ∧
        ∀ d t, s.threads d = some t → t.live = true → t.tid ≠ tid
    | .register c => ∃ t, s.threads c = some t ∧ t.registered = false
    | .probe c _ _ => ∃ t, s.threads c = some t ∧ t.live = true
    | .exit c => ∃ t, s.threads c = some t ∧ t.live = true
  step s
    | .create c tid => .ok (s.set c (.created tid) s.proc)
    | .register c =>
      match s.threads c with
      | none => .ok s
      | some t =>
        match lprobeThreadInit t.pid s.proc with
        | .error f => .error f
        | .ok g =>
          let slot := (slotAt s.proc.info.threadNid).toOption
          .ok (s.set c { t with registered := true, slot := slot } g)
    | .probe c call samples =>
      match s.threads c with
      | none => .ok s
      | some t =>
        match lprobeFunc call samples t.tid t.tls s.proc with
        | .error f => .error f
        | .ok r => .ok (s.set c { t with tls := r.1, early := t.early || !t.registered } r.2)
    | .exit c =>
      match s.threads c with
      | none => .ok s
      | some t => .ok (s.set c { t with live := false } (lprobeThreadExit s.proc))

/-- After `lprobe_init`: thread 0 is the main thread. -/
def ThreadSt.start (pid : Int) (tls : Tls) (g : Proc) : ThreadSt :=
  ⟨g, fun c => if c = 0 then some ⟨pid, true, true, tls.threadinfo, false, tls⟩ else none⟩

/-! ## The invariant -/

structure ThreadOk (g : Proc) (t : Thread) : Prop where
  tid : ValidTid t.tid
  bound : ∀ j, t.tls.threadinfo = some j → findTinfo g.info t.tid = some j
  pending : t.registered = false → t.slot = none
  placed : ∀ i, t.slot = some i → i ∈ g.inits ∧ (t.live = true → (g.slot i).tid = t.tid)
  onTime : t.early = false → t.tls.isIgnore = true → t.registered = true ∧ t.slot = none
  late : t.early = true →
    t.tls.isIgnore = true ∨ ∃ j, t.tls.threadinfo = some j ∧ t.slot ≠ some j

structure ThreadsOk (s : ThreadSt) : Prop where
  slots : SlotInv s.proc
  table : TableOk s.proc
  thread : ∀ c t, s.threads c = some t → ThreadOk s.proc t

theorem ThreadsOk.start {pid : Int} {tls : Tls} {g : Proc} (hpid : ValidTid pid)
    (h : InitOk pid tls g) : ThreadsOk (.start pid tls g) where
  slots := h.toSlotInv
  table := h.table
  thread c t ht := by
    simp only [ThreadSt.start] at ht
    split at ht
    · cases ht
      refine ⟨hpid, fun j hj => h.lookup.trans hj, fun e => (by cases e), fun i hi => ?_,
        fun _ hig => ?_, fun e => (by cases e)⟩
      · have htid := (findTinfo_eq_some.1 (h.lookup.trans hi)).1
        refine ⟨h.table.mem_inits ?_, fun _ => htid⟩
        rw [Proc.slot, htid]
        exact hpid.pos
      · rw [h.heeds] at hig
        cases hig
    · cases ht

theorem ThreadOk.mem_inits {g : Proc} {t : Thread} (h : ThreadOk g t) (ht : TableOk g)
    {j : Fin profThreadMax} (hj : t.tls.threadinfo = some j) : j ∈ g.inits := by
  refine ht.mem_inits ?_
  rw [Proc.slot, (findTinfo_eq_some.1 (h.bound j hj)).1]
  exact h.tid.pos

theorem ThreadOk.registers {g g' : Proc} {t : Thread} {pid : Int} {id : Fin profThreadMax}
    (h : ThreadOk g t) (r : Registers g pid id g') (hs : SlotInv g) (ht : TableOk g)
    (hnb : g.info.threadNb = id) : ThreadOk g' t where
  tid := h.tid
  bound j hj := r.findTinfo_of_mem hs hnb (h.bound j hj) (h.mem_inits ht hj)
  pending := h.pending
  placed i hi := by
    obtain ⟨hmem, htid⟩ := h.placed i hi
    rw [r.slot_of_mem (hs.not_mem_inits hnb) hmem]
    exact ⟨r.mem_inits hmem, htid⟩
  onTime := h.onTime
  late := h.late

theorem ThreadOk.extends {g g' : Proc} {t : Thread} {i : Fin profThreadMax}
    {rs : List ProfRecord} (h : ThreadOk g t) (e : Extends g i rs g') : ThreadOk g' t where
  tid := h.tid
  bound j hj := (e.findTinfo t.tid).trans (h.bound j hj)
  pending := h.pending
  placed j hj := by
    rw [e.inits, e.tid]
    exact h.placed j hj
  onTime := h.onTime
  late := h.late

/-! ## The steps -/

theorem step_register {s : ThreadSt} {c : Nat} {t : Thread} {g : Proc}
    {slot : Option (Fin profThreadMax)} (ht : s.threads c = some t)
    (hg : lprobeThreadInit t.pid s.proc = .ok g)
    (hslot : (slotAt s.proc.info.threadNid).toOption = slot) :
    threadMachine.step s (.register c) =
      .ok (s.set c { t with registered := true, slot := slot } g) := by
  simp only [threadMachine, ht, hg, hslot]

theorem step_probe {s : ThreadSt} {c : Nat} {t : Thread} {call : ProbeCall}
    {samples : Nat → PmcSample} {tls : Tls} {g : Proc} (ht : s.threads c = some t)
    (hg : lprobeFunc call samples t.tid t.tls s.proc = .ok (tls, g)) :
    threadMachine.step s (.probe c call samples) =
      .ok (s.set c { t with tls := tls, early := t.early || !t.registered } g) := by
  simp only [threadMachine, ht, hg]

theorem step_exit {s : ThreadSt} {c : Nat} {t : Thread} (ht : s.threads c = some t) :
    threadMachine.step s (.exit c) = .ok (s.set c { t with live := false } s.proc) := by
  simp only [threadMachine, ht, lprobeThreadExit]

/-- A registration takes the next slot, or finds the table full and does nothing. -/
theorem lprobeThreadInit_cases {g : Proc} (h : SlotInv g) (pid : Int) :
    (lprobeThreadInit pid g = .ok g ∧ (slotAt g.info.threadNid).toOption = none) ∨
    ∃ g' id, lprobeThreadInit pid g = .ok g' ∧ (slotAt g.info.threadNid).toOption = some id ∧
      g.info.threadNb = id ∧ Registers g pid id g' ∧ SlotInv g' := by
  by_cases hfull : g.info.threadNid = uintMax
  · refine .inl ⟨by simp only [lprobeThreadInit, hfull, ↓reduceIte], ?_⟩
    rw [hfull]
    rfl
  · obtain ⟨id, hnid, hnb⟩ := h.next (h.lt_of_nid_ne hfull)
    obtain ⟨g', hg', r⟩ := registerTid_ok pid hnid
    refine .inr ⟨g', id, ?_, ?_, hnb, r, r.slotInv h hnb⟩
    · simp only [lprobeThreadInit, hfull, ↓reduceIte, hg']
    · rw [slotAt_eq hnid]
      rfl

/-- The thread's own data after the first half of a probe. -/
theorem enterProbe_cases (tid : Int) (tls : Tls) (info : ProfInfo) :
    (tls.isIgnore = true ∧ enterProbe tid tls info = (tls, none)) ∨
    (tls.isIgnore = false ∧ tls.threadinfo = none ∧ findTinfo info tid = none ∧
      enterProbe tid tls info = ({ tls with threadid := tid, isIgnore := true }, none)) ∨
    ∃ i tls', tls.isIgnore = false ∧ tls'.isIgnore = false ∧ tls'.threadinfo = some i ∧
      (tls.threadinfo = some i ∨ (tls.threadinfo = none ∧ findTinfo info tid = some i)) ∧
      enterProbe tid tls info =
        (tls', if (info.threads i).state = .running then some i else none) := by
  cases hig : tls.isIgnore with
  | true => exact .inl ⟨rfl, by simp only [enterProbe, hig, ↓reduceIte]⟩
  | false =>
    refine .inr ?_
    cases hti : tls.threadinfo with
    | some i =>
      refine .inr ⟨i, tls, rfl, hig, hti, .inl rfl, ?_⟩
      simp only [enterProbe, hig, lookupTinfo, hti, Bool.false_eq_true, ↓reduceIte]
    | none =>
      cases hf : findTinfo info tid with
      | none =>
        refine .inl ⟨rfl, rfl, rfl, ?_⟩
        simp only [enterProbe, hig, lookupTinfo, hti, hf, Bool.false_eq_true, ↓reduceIte]
      | some i =>
        refine .inr ⟨i, ⟨some i, false, tid⟩, rfl, rfl, rfl, .inr ⟨rfl, rfl⟩, ?_⟩
        simp only [enterProbe, hig, lookupTinfo, hti, hf, Bool.false_eq_true, ↓reduceIte]

/-- The prober keeps its invariant. -/
theorem ThreadOk.probed {g : Proc} {t : Thread} (h : ThreadOk g t) (hlive : t.live = true) :
    ThreadOk g { t with
      tls := (enterProbe t.tid t.tls g.info).1, early := t.early || !t.registered } := by
  have hfound : findTinfo g.info t.tid = none → t.slot = none := by
    intro hnone
    by_contra hs
    obtain ⟨i, hi⟩ := Option.ne_none_iff_exists'.1 hs
    exact findTinfo_eq_none.1 hnone i ((h.placed i hi).2 hlive)
  -- a probe that is early now finds no slot of its own, since it has none yet
  have hearly : (t.early || !t.registered) = true → t.early = true ∨ t.slot = none := by
    intro he
    cases hr : t.registered with
    | true => exact .inl (by simpa [hr] using he)
    | false => exact .inr (h.pending hr)
  have hok : (t.early || !t.registered) = false → t.early = false ∧ t.registered = true := by
    simp
  rcases enterProbe_cases t.tid t.tls g.info with
    ⟨hig, he⟩ | ⟨-, hti, hf, he⟩ | ⟨i, tls', hig, hig', hti', hfrom, he⟩
  · simp only [he]
    exact ⟨h.tid, h.bound, h.pending, h.placed, fun he' _ => h.onTime (hok he').1 hig,
      fun _ => .inl hig⟩
  · simp only [he]
    refine ⟨h.tid, fun j hj => ?_, h.pending, h.placed, fun he' _ => ⟨(hok he').2, hfound hf⟩,
      fun _ => .inl rfl⟩
    rw [hti] at hj
    cases hj
  · simp only [he]
    have hfind : findTinfo g.info t.tid = some i := by
      rcases hfrom with hti | ⟨-, hf⟩
      · exact h.bound i hti
      · exact hf
    refine ⟨h.tid, fun j hj => ?_, h.pending, h.placed, fun _ hc => ?_, fun he' => ?_⟩
    · rw [hti'] at hj
      cases hj
      exact hfind
    · rw [hig'] at hc
      cases hc
    · refine .inr ⟨i, hti', ?_⟩
      rcases hearly he' with h1 | h1
      · rcases h.late h1 with h2 | ⟨j, hj, hne⟩
        · rw [hig] at h2
          cases h2
        · have hji := (h.bound j hj).symm.trans hfind
          cases hji
          exact hne
      · rw [h1]
        simp

theorem ThreadsOk.set {s : ThreadSt} (h : ThreadsOk s) {g : Proc} (hs : SlotInv g)
    (ht : TableOk g) (hother : ∀ t, ThreadOk s.proc t → ThreadOk g t) {t : Thread}
    (hself : ThreadOk g t) (c : Nat) : ThreadsOk (s.set c t g) := by
  refine ⟨hs, ht, fun d u hu => ?_⟩
  simp only [ThreadSt.set] at hu
  by_cases hd : d = c
  · subst hd
    rw [Function.update_self] at hu
    cases hu
    exact hself
  · rw [Function.update_of_ne hd] at hu
    exact hother u (h.thread d u hu)

theorem ThreadOk.registered {g g' : Proc} {t : Thread} {id : Fin profThreadMax} (h : ThreadOk g t)
    (hreg : t.registered = false) (r : Registers g t.pid id g') (hs : SlotInv g) (ht : TableOk g)
    (hnb : g.info.threadNb = id) :
    ThreadOk g' { t with registered := true, slot := some id } := by
  have hid := hs.not_mem_inits hnb
  obtain ⟨h1, h2, -, -, h5, h6⟩ := h.registers r hs ht hnb
  refine ⟨h1, h2, fun e => (by cases e), fun i hi => ?_, fun he hig => ?_, fun he => ?_⟩
  · cases hi
    refine ⟨by rw [r.inits]; simp, fun hlive => ?_⟩
    rw [(r.initialised ht hid).tid, Thread.pid, if_pos hlive]
  · rw [(h5 he hig).1] at hreg
    cases hreg
  · rcases h6 he with hig | ⟨j, hj, -⟩
    · exact .inl hig
    · refine .inr ⟨j, hj, fun e => ?_⟩
      cases e
      exact hid (h.mem_inits ht hj)

/-- A registration that finds the table full. -/
theorem ThreadOk.refused {g : Proc} {t : Thread} (h : ThreadOk g t) (hreg : t.registered = false) :
    ThreadOk g { t with registered := true, slot := none } where
  tid := h.tid
  bound := h.bound
  pending e := (by cases e)
  placed _ hi := (by cases hi)
  onTime he hig := by
    rw [(h.onTime he hig).1] at hreg
    cases hreg
  late he := by
    rcases h.late he with hig | ⟨j, hj, -⟩
    · exact .inl hig
    · exact .inr ⟨j, hj, fun e => (by cases e)⟩

/-- **One step** never faults and keeps the invariant. -/
theorem threadsOk_step {s : ThreadSt} {a : ThreadStep} (h : ThreadsOk s)
    (hen : threadMachine.Enabled s a) :
    ∃ s', threadMachine.step s a = .ok s' ∧ ThreadsOk s' := by
  cases a with
  | create c tid =>
    obtain ⟨-, hvalid, -⟩ := hen
    refine ⟨_, rfl, h.set h.slots h.table (fun _ ht => ht) ?_ c⟩
    exact ⟨hvalid, fun _ e => (by cases e), fun _ => rfl, fun _ e => (by cases e),
      fun _ e => (by cases e), fun e => (by cases e)⟩
  | register c =>
    obtain ⟨t, ht, hreg⟩ := hen
    have hok := h.thread c t ht
    rcases lprobeThreadInit_cases h.slots t.pid with ⟨hg, hid⟩ | ⟨g', id, hg, hid, hnb, r, hs'⟩
    · refine ⟨_, step_register ht hg hid, ?_⟩
      exact h.set h.slots h.table (fun _ ht => ht) (hok.refused hreg) c
    · refine ⟨_, step_register ht hg hid, ?_⟩
      exact h.set hs' (r.tableOk h.table (h.slots.not_mem_inits hnb))
        (fun _ hu => hu.registers r h.slots h.table hnb) (hok.registered hreg r h.slots h.table hnb) c
  | probe c call samples =>
    obtain ⟨t, ht, hlive⟩ := hen
    have hok := (h.thread c t ht).probed hlive
    obtain ⟨g', hg, hcase⟩ := lprobeFunc_spec h.table call samples t.tid t.tls
    refine ⟨_, step_probe ht hg, ?_⟩
    split at hcase
    · subst hcase
      exact h.set h.slots h.table (fun _ hu => hu) hok c
    · obtain ⟨l, -, e⟩ := hcase
      exact h.set (e.slotInv h.slots) (e.tableOk h.table) (fun _ hu => hu.extends e)
        (hok.extends e) c
  | exit c =>
    obtain ⟨t, ht, -⟩ := hen
    obtain ⟨h1, h2, h3, h4, h5, h6⟩ := h.thread c t ht
    refine ⟨_, step_exit ht, ?_⟩
    have hok : ThreadOk s.proc { t with live := false } :=
      ⟨h1, h2, h3, fun i hi => ⟨(h4 i hi).1, fun e => (by cases e)⟩, h5, h6⟩
    exact h.set h.slots h.table (fun _ hu => hu) hok c

/-- **No legal run faults**, and the invariant holds at its end. -/
theorem threads_run {s : ThreadSt} {acts : List ThreadStep} (h : ThreadsOk s)
    (hl : threadMachine.Legal s acts) :
    ∃ s', threadMachine.run s acts = .ok s' ∧ ThreadsOk s' :=
  hl.run_ok (P := fun _ s => ThreadsOk s) (fun _ _ _ hP hen => threadsOk_step hP hen) h

end Lprofile.Probe
