import Lprofile.Probe.Creation

/-!
# Reused tids

A slot is found by its tid, and no slot is released when its thread exits: only
`lprobe_exit` runs `__destroy_tinfo`. So every live thread finds exactly the slot
registered for it, and no registration truncates a file with records still to be
written, exactly as long as no thread is created with a tid that some slot of the
table already holds (`own_slots_iff`).
-/

namespace Lprofile.Probe

open Lprofile.Lib

/-- Every live thread finds the slot registered for it, and none before it is registered. -/
def OwnSlots (s : ThreadSt) : Prop :=
  ∀ c t, s.threads c = some t → t.live = true → findTinfo s.proc.info t.tid = t.slot

/-- A registration opens no file that an earlier one opened and has records to write to. -/
def RecordsSafe (s : ThreadSt) (a : ThreadStep) : Prop :=
  ∀ c t, a = .register c → s.threads c = some t → s.proc.info.threadNid ≠ uintMax →
    ∀ i ∈ s.proc.inits, outfile (s.proc.slot i).tid = outfile t.pid → (s.proc.slot i).nbRecord = 0

/-- No slot of the table holds the tid of the new thread. -/
def FreshTid (s : ThreadSt) (a : ThreadStep) : Prop :=
  ∀ c tid, a = .create c tid → ∀ i, (s.proc.slot i).tid ≠ tid

/-! ## The invariant -/

/-- What the tids of threads and slots have in common in every run. -/
structure TidsOk (s : ThreadSt) : Prop where
  distinct : ∀ c d t u, s.threads c = some t → s.threads d = some u → t.live = true →
    u.live = true → t.tid = u.tid → c = d
  range : ∀ i ∈ s.proc.inits, 0 ≤ (s.proc.slot i).tid ∧ (s.proc.slot i).tid < 2 ^ 31
  unnamed : ∀ i, (s.proc.slot i).tid = 0 → (s.proc.slot i).nbRecord = 0

theorem TidsOk.start {pid : Int} {tls : Tls} {g : Proc} (h : InitOk pid tls g) :
    TidsOk (.start pid tls g) where
  distinct c d t u hc hd _ _ _ := by
    simp only [ThreadSt.start] at hc hd
    split at hc
    · split at hd
      · omega
      · cases hd
    · cases hc
  range i hi := ⟨(h.idle i hi).tid.pos.le, (h.idle i hi).tid.lt⟩
  unnamed i _ := by
    by_cases hi : i ∈ g.inits
    · exact (h.idle i hi).nbRecord
    · obtain ⟨tid, -, he⟩ := h.table.fresh i hi
      rw [show (ThreadSt.start pid tls g).proc.slot i = .empty tid from he]
      rfl

/-- Threads that live after a step and lived before it. -/
theorem TidsOk.distinct_set {s : ThreadSt} (h : TidsOk s) {c : Nat} {t t' : Thread} {g : Proc}
    (ht : s.threads c = some t) (htid : t'.tid = t.tid) (hlive : t'.live = true → t.live = true) :
    ∀ a b v w, (s.set c t' g).threads a = some v → (s.set c t' g).threads b = some w →
      v.live = true → w.live = true → v.tid = w.tid → a = b := by
  have hback : ∀ a v, (s.set c t' g).threads a = some v → v.live = true →
      ∃ u, s.threads a = some u ∧ u.live = true ∧ u.tid = v.tid := by
    intro a v hv hl
    simp only [ThreadSt.set] at hv
    by_cases ha : a = c
    · subst ha
      rw [Function.update_self] at hv
      cases hv
      exact ⟨t, ht, hlive hl, htid.symm⟩
    · rw [Function.update_of_ne ha] at hv
      exact ⟨v, hv, hl, rfl⟩
  intro a b v w hv hw hvl hwl e
  obtain ⟨v', hv', hvl', hvt⟩ := hback a v hv hvl
  obtain ⟨w', hw', hwl', hwt⟩ := hback b w hw hwl
  exact h.distinct a b v' w' hv' hw' hvl' hwl' (by rw [hvt, hwt, e])

/-- A probe records in a slot that carries the tid of its thread. -/
theorem ThreadOk.tid_of_enterProbe {g : Proc} {t : Thread} (h : ThreadOk g t)
    {i : Fin profThreadMax} (he : (enterProbe t.tid t.tls g.info).2 = some i) :
    (g.slot i).tid = t.tid := by
  rcases enterProbe_cases t.tid t.tls g.info with
    ⟨-, he'⟩ | ⟨-, -, -, he'⟩ | ⟨j, tls', -, -, -, hfrom, he'⟩
  · rw [he'] at he
    cases he
  · rw [he'] at he
    cases he
  · rw [he'] at he
    have hji : j = i := by
      split at he
      · exact Option.some.inj he
      · cases he
    subst hji
    have hf : findTinfo g.info t.tid = some j := by
      rcases hfrom with hti | ⟨-, hf⟩
      · exact h.bound j hti
      · exact hf
    exact (findTinfo_eq_some.1 hf).1

theorem TidsOk.create {s : ThreadSt} (h : TidsOk s) {c : Nat} {tid : Int}
    (hlive : ∀ d t, s.threads d = some t → t.live = true → t.tid ≠ tid) :
    TidsOk (s.set c (.created tid) s.proc) := by
  refine ⟨fun x y v w hv hw hvl hwl e => ?_, h.range, h.unnamed⟩
  simp only [ThreadSt.set] at hv hw
  by_cases hx : x = c <;> by_cases hy : y = c
  · rw [hx, hy]
  · subst hx
    rw [Function.update_self] at hv
    rw [Function.update_of_ne hy] at hw
    cases hv
    exact absurd e.symm (hlive y w hw hwl)
  · subst hy
    rw [Function.update_of_ne hx] at hv
    rw [Function.update_self] at hw
    cases hw
    exact absurd e (hlive x v hv hvl)
  · rw [Function.update_of_ne hx] at hv
    rw [Function.update_of_ne hy] at hw
    exact h.distinct x y v w hv hw hvl hwl e

theorem ThreadOk.pid_range {g : Proc} {t : Thread} (h : ThreadOk g t) :
    0 ≤ t.pid ∧ t.pid < 2 ^ 31 := by
  have hv := h.tid
  unfold Thread.pid
  split
  · exact ⟨hv.pos.le, hv.lt⟩
  · decide

/-- The tids of the slots after a registration. -/
theorem TidsOk.registers {s : ThreadSt} (h : TidsOk s) {pid : Int} {id : Fin profThreadMax}
    {g' : Proc} (r : Registers s.proc pid id g')
    (hinit : Initialised pid s.proc.os (g'.slot id) g'.os) (hpid : 0 ≤ pid ∧ pid < 2 ^ 31) :
    (∀ i ∈ g'.inits, 0 ≤ (g'.slot i).tid ∧ (g'.slot i).tid < 2 ^ 31) ∧
      ∀ i, (g'.slot i).tid = 0 → (g'.slot i).nbRecord = 0 := by
  constructor
  · refine r.forall_inits (P := fun t => 0 ≤ t.tid ∧ t.tid < 2 ^ 31) ?_ h.range
    rw [hinit.tid]
    exact hpid
  · exact r.forall_slot (P := fun t => t.tid = 0 → t.nbRecord = 0) (fun _ => hinit.nbRecord)
      h.unnamed

/-- The tids of the slots after a probe of a thread with a positive tid. -/
theorem TidsOk.extends {s : ThreadSt} (h : TidsOk s) {j : Fin profThreadMax}
    {rs : List ProfRecord} {g' : Proc} (e : Extends s.proc j rs g')
    (hpos : 0 < (s.proc.slot j).tid) :
    (∀ i ∈ g'.inits, 0 ≤ (g'.slot i).tid ∧ (g'.slot i).tid < 2 ^ 31) ∧
      ∀ i, (g'.slot i).tid = 0 → (g'.slot i).nbRecord = 0 := by
  constructor
  · intro i hi
    rw [e.tid]
    exact h.range i (e.inits ▸ hi)
  · intro i hi
    rw [e.tid] at hi
    have hij : i ≠ j := by
      rintro rfl
      omega
    rw [e.slot_ne i hij]
    exact h.unnamed i hi

theorem tidsOk_step {s s' : ThreadSt} {a : ThreadStep} (h : ThreadsOk s) (ht : TidsOk s)
    (hen : threadMachine.Enabled s a) (hs : threadMachine.step s a = .ok s') : TidsOk s' := by
  cases a with
  | create c tid =>
    cases hs
    exact ht.create hen.2.2
  | register c =>
    obtain ⟨t, hc, hreg⟩ := hen
    rcases lprobeThreadInit_cases h.slots t.pid with ⟨hg, hid⟩ | ⟨g', id, hg, hid, hnb, r, -⟩
    · rw [step_register hc hg hid] at hs
      cases hs
      exact ⟨ht.distinct_set hc rfl fun hl => hl, ht.range, ht.unnamed⟩
    · rw [step_register hc hg hid] at hs
      cases hs
      obtain ⟨hrange, hunnamed⟩ := ht.registers r
        (r.initialised h.table (h.slots.not_mem_inits hnb)) (h.thread c t hc).pid_range
      exact ⟨ht.distinct_set hc rfl fun hl => hl, hrange, hunnamed⟩
  | probe c call samples =>
    obtain ⟨t, hc, hlive⟩ := hen
    obtain ⟨g', hg, hcase⟩ := lprobeFunc_spec h.table call samples t.tid t.tls
    rw [step_probe hc hg] at hs
    cases hs
    split at hcase
    · subst hcase
      exact ⟨ht.distinct_set hc rfl fun hl => hl, ht.range, ht.unnamed⟩
    · rename_i j hj
      obtain ⟨l, -, e⟩ := hcase
      have hpos : 0 < (s.proc.slot j).tid := by
        rw [(h.thread c t hc).tid_of_enterProbe hj]
        exact (h.thread c t hc).tid.pos
      obtain ⟨hrange, hunnamed⟩ := ht.extends e hpos
      exact ⟨ht.distinct_set hc rfl fun hl => hl, hrange, hunnamed⟩
  | exit c =>
    obtain ⟨t, hc, hlive⟩ := hen
    rw [step_exit hc] at hs
    cases hs
    exact ⟨ht.distinct_set hc rfl fun e => (by cases e), ht.range, ht.unnamed⟩

/-! ## Lookups -/

/-- A step that changes thread `c` and leaves the lookups of the others alone. -/
theorem OwnSlots.set {s : ThreadSt} (h : OwnSlots s) {c : Nat} {t : Thread} {g : Proc}
    (hother : ∀ d u, d ≠ c → s.threads d = some u → u.live = true →
      findTinfo g.info u.tid = findTinfo s.proc.info u.tid)
    (hself : t.live = true → findTinfo g.info t.tid = t.slot) : OwnSlots (s.set c t g) := by
  intro d u hu hl
  simp only [ThreadSt.set] at hu ⊢
  by_cases hd : d = c
  · subst hd
    rw [Function.update_self] at hu
    cases hu
    exact hself hl
  · rw [Function.update_of_ne hd] at hu
    rw [hother d u hd hu hl]
    exact h d u hu hl

theorem ownSlots_step {s s' : ThreadSt} {a : ThreadStep} (h : ThreadsOk s) (ht : TidsOk s)
    (ho : OwnSlots s) (hen : threadMachine.Enabled s a) (hf : FreshTid s a)
    (hs : threadMachine.step s a = .ok s') : OwnSlots s' := by
  cases a with
  | create c tid =>
    cases hs
    exact ho.set (fun _ _ _ _ _ => rfl) fun _ => findTinfo_eq_none.2 (hf c tid rfl)
  | register c =>
    obtain ⟨t, hc, hreg⟩ := hen
    have hnone : t.live = true → findTinfo s.proc.info t.tid = none := by
      intro hl
      rw [ho c t hc hl]
      exact (h.thread c t hc).pending hreg
    rcases lprobeThreadInit_cases h.slots t.pid with ⟨hg, hid⟩ | ⟨g', id, hg, hid, hnb, r, -⟩
    · rw [step_register hc hg hid] at hs
      cases hs
      exact ho.set (fun _ _ _ _ _ => rfl) hnone
    · rw [step_register hc hg hid] at hs
      cases hs
      have hfresh := h.slots.not_mem_inits hnb
      refine ho.set (fun d u hd hu hl => ?_) fun hl => ?_
      · have hpos := (h.thread d u hu).tid.pos
        refine r.findTinfo_of_ne h.table hfresh hpos ?_
        -- another live thread has another tid, and no live thread has tid 0
        unfold Thread.pid
        split
        · rename_i hl'
          exact fun e => hd (ht.distinct d c u t hu hc hl hl' e)
        · omega
      · have hl : t.live = true := hl
        have hpid : t.pid = t.tid := if_pos hl
        rw [← hpid] at hnone
        rw [← hpid]
        exact r.findTinfo_self h.table hfresh (hnone hl)
  | probe c call samples =>
    obtain ⟨t, hc, hlive⟩ := hen
    obtain ⟨g', hg, hcase⟩ := lprobeFunc_spec h.table call samples t.tid t.tls
    rw [step_probe hc hg] at hs
    cases hs
    have hfind : ∀ tid, findTinfo g'.info tid = findTinfo s.proc.info tid := by
      intro tid
      split at hcase
      · rw [hcase]
      · obtain ⟨l, -, e⟩ := hcase
        exact e.findTinfo tid
    exact ho.set (fun _ u _ _ _ => hfind u.tid) fun _ => (hfind t.tid).trans (ho c t hc hlive)
  | exit c =>
    obtain ⟨t, hc, -⟩ := hen
    rw [step_exit hc] at hs
    cases hs
    exact ho.set (fun _ _ _ _ _ => rfl) fun e => (by cases e)

/-- While every live thread finds its own slot, registrations are safe. -/
theorem OwnSlots.recordsSafe {s : ThreadSt} {a : ThreadStep} (ho : OwnSlots s) (h : ThreadsOk s)
    (ht : TidsOk s) (hen : threadMachine.Enabled s a) : RecordsSafe s a := by
  rintro c t rfl hc - i hi hfile
  obtain ⟨t', hc', hreg⟩ := hen
  rw [hc] at hc'
  cases hc'
  have hok := h.thread c t hc
  cases hl : t.live with
  | true =>
    have hpid : t.pid = t.tid := if_pos hl
    have hnone := (ho c t hc hl).trans (hok.pending hreg)
    rw [hpid] at hfile
    have htid := outfile_injective (ht.range i hi) ⟨hok.tid.pos.le, hok.tid.lt⟩ hfile
    exact absurd htid (findTinfo_eq_none.1 hnone i)
  | false =>
    have hpid : t.pid = 0 := if_neg (by simp [hl])
    rw [hpid] at hfile
    exact ht.unnamed i (outfile_injective (ht.range i hi) (by decide) hfile)

/-- **A slot belongs to one incarnation of its tid.** Along every run of threads that are created,
registered, probe and exit after a successful `lprobe_init`, the live threads find exactly their
own slots and no registration truncates unwritten records, if and only if no thread is created
with a tid that a slot of the table holds. -/
theorem own_slots_iff (evlistStr : CStr) (minId maxId freq : Nat) (pid : Int) (mutexOk : Bool)
    (namelist : Option (List CStr)) (os : Os) (tls : Tls) (g : Proc) (hpid : ValidTid pid)
    (hinit : lprobeInit evlistStr minId maxId freq pid mutexOk namelist .initial
      (Proc.initial os) = .ok (0, tls, g))
    (acts : List ThreadStep) (hl : threadMachine.Legal (.start pid tls g) acts) :
    (∃ s, threadMachine.run (.start pid tls g) acts = .ok s) ∧
    ((threadMachine.Always (.start pid tls g) acts OwnSlots ∧
        threadMachine.AtEach (.start pid tls g) acts RecordsSafe) ↔
      threadMachine.AtEach (.start pid tls g) acts FreshTid) := by
  have hok := lprobeInit_ok hpid hinit
  have h0 := ThreadsOk.start hpid hok
  obtain ⟨s, hs, -⟩ := threads_run h0 hl
  refine ⟨⟨s, hs⟩, fun ⟨hown, _⟩ => ?_, fun hfresh => ?_⟩
  · rintro pre a post t rfl ht c tid rfl
    have hstep : threadMachine.step t (.create c tid) =
        .ok (t.set c (.created tid) t.proc) := rfl
    have hrun := Machine.run_snoc_eq_ok.2 ⟨t, ht, hstep⟩
    have hnone := hown (pre ++ [.create c tid]) _ ⟨post, by simp⟩ hrun c (.created tid)
      (by simp [ThreadSt.set]) rfl
    exact findTinfo_eq_none.1 hnone
  · have hall : threadMachine.Always (.start pid tls g) acts fun s =>
        ThreadsOk s ∧ TidsOk s ∧ OwnSlots s := by
      refine Machine.always_of_step ⟨h0, .start hok, fun c t hc _ => ?_⟩ ?_
      · simp only [ThreadSt.start] at hc
        split at hc
        · cases hc
          exact hok.lookup
        · cases hc
      · rintro pre a post t t' rfl ht ⟨h1, h2, h3⟩ hstep
        have hen := hl.enabled ht
        obtain ⟨u, hu, h1'⟩ := threadsOk_step h1 hen
        rw [hstep] at hu
        cases hu
        exact ⟨h1', tidsOk_step h1 h2 hen hstep,
          ownSlots_step h1 h2 h3 hen (hfresh pre a post t rfl ht) hstep⟩
    refine ⟨fun pre t hp ht => (hall pre t hp ht).2.2, ?_⟩
    rintro pre a post t rfl ht
    obtain ⟨h1, h2, h3⟩ := hall pre t (List.prefix_append _ _) ht
    exact h3.recordsSafe h1 h2 (hl.enabled ht)

/-! ## Two threads with one tid -/

theorem own_slots_iff_child :
    (∃ s, threadMachine.run childStart
      [.create 1 200, .register 1, .probe 1 someCall fun _ => closedPage, .exit 1] = .ok s) ∧
    ((threadMachine.Always childStart
        [.create 1 200, .register 1, .probe 1 someCall fun _ => closedPage, .exit 1] OwnSlots ∧
      threadMachine.AtEach childStart
        [.create 1 200, .register 1, .probe 1 someCall fun _ => closedPage, .exit 1]
        RecordsSafe) ↔
    threadMachine.AtEach childStart
      [.create 1 200, .register 1, .probe 1 someCall fun _ => closedPage, .exit 1] FreshTid) := by
  refine own_slots_iff _ _ _ _ _ _ _ _ _ _ ⟨by decide, by decide⟩ soloInit_eq _
    ⟨legal_create, fun s hs => ?_⟩
  cases hs
  refine ⟨⟨_, rfl, rfl⟩, fun s hs => ?_⟩
  cases hs
  refine ⟨⟨_, rfl, rfl⟩, fun s hs => ?_⟩
  cases hs
  exact ⟨⟨_, rfl, rfl⟩, fun _ _ => trivial⟩

/-- Thread 200 records, exits, and a new thread gets its tid: the new thread finds the old slot,
and its registration truncates `prof.200` while the old record is still in the buffer. -/
theorem reused_tid_clashes :
    threadMachine.Legal childStart [.create 1 200, .register 1,
      .probe 1 someCall fun _ => closedPage, .exit 1, .create 2 200, .register 2] ∧
    ¬ threadMachine.Always childStart [.create 1 200, .register 1,
      .probe 1 someCall fun _ => closedPage, .exit 1, .create 2 200, .register 2] OwnSlots ∧
    ¬ threadMachine.AtEach childStart [.create 1 200, .register 1,
      .probe 1 someCall fun _ => closedPage, .exit 1, .create 2 200, .register 2]
      RecordsSafe := by
  refine ⟨⟨legal_create, fun s hs => ?_⟩, fun h => ?_, fun h => ?_⟩
  · cases hs
    refine ⟨⟨_, rfl, rfl⟩, fun s hs => ?_⟩
    cases hs
    refine ⟨⟨_, rfl, rfl⟩, fun s hs => ?_⟩
    cases hs
    refine ⟨⟨_, rfl, rfl⟩, fun s hs => ?_⟩
    cases hs
    refine ⟨⟨rfl, ⟨by decide, by decide⟩, fun d t ht hlive => ?_⟩, fun s hs => ?_⟩
    · rcases d with _ | _ | d
      · cases ht
        decide
      · cases ht
        cases hlive
      · cases ht
    · cases hs
      exact ⟨⟨_, rfl, rfl⟩, fun _ _ => trivial⟩
  · have hown := h [.create 1 200, .register 1, .probe 1 someCall fun _ => closedPage, .exit 1,
      .create 2 200] _ ⟨[.register 2], rfl⟩ rfl 2 (.created 200) rfl rfl
    revert hown
    decide
  · have hsafe := h [.create 1 200, .register 1, .probe 1 someCall fun _ => closedPage, .exit 1,
      .create 2 200] _ [] _ rfl rfl 2 (.created 200) rfl rfl (by decide) 1 (by decide) rfl
    revert hsafe
    decide

end Lprofile.Probe
