import Lprofile.Probe.Accounting
import Lprofile.Probe.Creation

/-!
# The life of a slot

A sequential run after `lprobe_init`: any threads call `lprobe_thread_init`, the
probes and `lprobe_exit`, in any order and also after an exit. A thread is known
by a number; its thread-local data outlive `lprobe_exit`.

`LifeOk` holds in every state, whatever the system answers. So `__read_count`
only runs on a slot that has its events and its file, and never again on a slot
that an exit destroyed (`probes_touch_live_slots`).

`lprobe_exit` destroys the RUNNING slots. A thread whose event list was created
and whose file could not be opened, or the other way round, has a slot in state
ERROR that still owns something: an exit releases everything exactly when there
is no such slot (`released_iff`).
-/

namespace Lprofile.Probe

open Lprofile.Lib

structure ApiSt where
  proc : Proc
  tls : Nat → Tls

inductive ApiCall where
  /-- `lprobe_thread_init`, with the tid in the descriptor of the new thread -/
  | threadInit (tid : Int)
  /-- a probe of thread `c`, for which `gettid` returns `tid` -/
  | func (c : Nat) (tid : Int) (call : ProbeCall) (samples : Nat → PmcSample)
  /-- `lprobe_exit` -/
  | exit

def apiMachine : Machine ApiSt ApiCall Fault where
  Enabled _
    | .threadInit tid => 0 ≤ tid ∧ tid < 2 ^ 31
    | .func _ _ _ _ => True
    | .exit => True
  step s
    | .threadInit tid =>
      match lprobeThreadInit tid s.proc with
      | .error f => .error f
      | .ok g => .ok { s with proc := g }
    | .func c tid call samples =>
      match lprobeFunc call samples tid (s.tls c) s.proc with
      | .error f => .error f
      | .ok r => .ok ⟨r.2, Function.update s.tls c r.1⟩
    | .exit => .ok { s with proc := lprobeExit s.proc }

/-- After `lprobe_init`, which thread 0 called. -/
def ApiSt.start (tls : Tls) (g : Proc) : ApiSt := ⟨g, fun c => if c = 0 then tls else .initial⟩

/-- The call executes `__read_count` on slot `i`. -/
def Executes (s : ApiSt) (a : ApiCall) (i : Fin profThreadMax) : Prop :=
  ∃ c tid call samples, a = .func c tid call samples ∧
    (enterProbe tid (s.tls c) s.proc.info).2 = some i

/-- The slot has its list and its open file, and the enabled events are open and mapped. -/
structure LiveSlot (g : Proc) (i : Fin profThreadMax) : Prop where
  evlist : (g.slot i).evlist ≠ none
  file : ∃ f, (g.slot i).outputFile = some f ∧ f.path ∈ openFiles g.os.trace
  /-- no other slot's handle is taken for this one's -/
  handles : openFiles g.os.trace = ∑ j, (g.slot j).handles
  events : ∀ e ∈ (g.slot i).events, e.isEnable = true →
    e.isOpen = true ∧ e.fd ∈ openFds g.os.trace ∧
      ∃ p, e.mmPage = some p ∧ p ∈ mappedPages g.os.trace

/-- `lprobe_exit` would run `__destroy_tinfo` on the slot. -/
def Destroys (g : Proc) (i : Fin profThreadMax) : Prop :=
  g.info.isError = false ∧ (g.slot i).tid ≠ -1 ∧ (g.slot i).state = .running

/-- Nothing is left of any thread. -/
structure Released (g : Proc) : Prop where
  slots : ∀ i, (g.slot i).evlist = none ∧ (g.slot i).outputFile = none
  fds : openFds g.os.trace = 0
  pages : mappedPages g.os.trace = 0
  files : openFiles g.os.trace = 0

/-! ## The invariant -/

structure LifeOk (k : LawfulKernel) (g : Proc) : Prop extends SlotInv g, TableBooked k g where
  isError : g.info.isError = false
  flog : g.info.flog = none

section

variable {k : LawfulKernel} {g g' : Proc} {i : Fin profThreadMax}

theorem tableBooked_configured (k : LawfulKernel) (evlistStr : CStr) (minId maxId freq : Nat) :
    TableBooked k (.configured evlistStr minId maxId freq (Os.boot k.toKernel)) := by
  have hslot : ∀ i, (Proc.configured evlistStr minId maxId freq (Os.boot k.toKernel)).slot i =
      .initial := fun _ => rfl
  refine ⟨booted_configured.table, ⟨fun i e he => ?_, ?_, ?_⟩, fun i => ?_⟩
  · rw [hslot] at he
    cases he
  · simp only [hslot]
    show Accounts k _ _ (Os.boot k.toKernel)
    simpa [ProfTinfo.events, ProfTinfo.initial] using accounts_boot k
  · simp only [hslot]
    simp [ProfTinfo.handles, ProfTinfo.initial]
    rfl
  · rw [hslot]
    exact ⟨by simp [ProfTinfo.initial], fun h => (by cases h)⟩

theorem lprobeInit_lifeOk {evlistStr : CStr} {minId maxId freq : Nat} {pid r : Int}
    {mutexOk : Bool} {namelist : Option (List CStr)} {tls : Tls} (hpid : ValidTid pid)
    (h : lprobeInit evlistStr minId maxId freq pid mutexOk namelist .initial
      (Proc.initial (Os.boot k.toKernel)) = .ok (r, tls, g)) : LifeOk k g := by
  obtain ⟨rfl, hscan, -⟩ := lprobeInit_returns hpid h
  have hok := lprobeInit_ok hpid h
  have hb := (scanRule_tableBooked k).scanThreads hpid slotInv_configured
    (tableBooked_configured k _ _ _ _) hscan
  exact ⟨hok.toSlotInv, hb, hok.isError, hok.flog⟩

/-! ## `lprobe_exit` -/

theorem SlotInv.exitSlot (h : SlotInv g) (ht : TableOk g) (i : Fin profThreadMax) :
    SlotInv (exitSlot g i) := by
  unfold Probe.exitSlot
  split
  · exact h
  · split
    · rename_i hrun
      have hi := (h.inits_mem i).1 (ht.mem_inits_of_running hrun)
      refine ⟨h.nb_le, h.nid, fun j hj => ?_, h.inits_mem, h.inits_nodup, h.inits_length⟩
      have hne : j ≠ i := by
        rintro rfl
        have hlt : g.info.threadNb < j := hj
        omega
      exact (congrArg ProfTinfo.tid (Proc.slot_setSlot_ne g _ hne)).trans (h.free j hj)
    · exact h

theorem LifeOk.exitSlot (h : LifeOk k g) (i : Fin profThreadMax) : LifeOk k (exitSlot g i) := by
  have hinfo : (Probe.exitSlot g i).info.isError = g.info.isError ∧
      (Probe.exitSlot g i).info.flog = g.info.flog := by
    unfold Probe.exitSlot
    split
    · exact ⟨rfl, rfl⟩
    · split <;> exact ⟨rfl, rfl⟩
  exact ⟨h.toSlotInv.exitSlot h.toTableOk i, h.toTableBooked.exitSlot i,
    hinfo.1.trans h.isError, hinfo.2.trans h.flog⟩

/-- What the loop does to each slot. -/
theorem exitSlots_slot (h : LifeOk k g) (is : List (Fin profThreadMax)) :
    LifeOk k (is.foldl exitSlot g) ∧ ∀ i,
      (i ∈ is → (g.slot i).state = .running → Emptied ((is.foldl exitSlot g).slot i)) ∧
      ((g.slot i).state ≠ .running → (is.foldl exitSlot g).slot i = g.slot i) := by
  induction is generalizing g with
  | nil => exact ⟨h, fun i => ⟨fun hi => (by cases hi), fun _ => rfl⟩⟩
  | cons j is ih =>
    rw [List.foldl_cons]
    obtain ⟨hok, hslot⟩ := ih (h.exitSlot j)
    refine ⟨hok, fun i => ?_⟩
    obtain ⟨hdone, hrest⟩ := hslot i
    by_cases hij : i = j
    · subst hij
      constructor
      · intro _ hrun
        have hself : (exitSlot g i).slot i = (destroyTinfo (g.slot i) g.os).1 := by
          rw [exitSlot_eq (h.state i), if_pos hrun]
          exact Proc.slot_setSlot_self g i _
        have hemp : Emptied ((exitSlot g i).slot i) := by
          rw [hself]
          exact emptied_destroyTinfo _ _
        rw [hrest (by rw [hemp.state]; simp)]
        exact hemp
      · intro hrun
        rw [exitSlot_idle hrun] at hrest ⊢
        exact hrest hrun
    · rw [exitSlot_slot_ne g hij] at hdone hrest
      exact ⟨fun hi hrun => hdone ((List.mem_cons.1 hi).resolve_left hij) hrun, hrest⟩

theorem LifeOk.lprobeExit_eq (h : LifeOk k g) :
    lprobeExit g = (List.finRange profThreadMax).foldl Probe.exitSlot g := by
  simp only [lprobeExit, h.isError, h.flog, Bool.false_eq_true, ↓reduceIte]

theorem LifeOk.lprobeExit (h : LifeOk k g) : LifeOk k (lprobeExit g) := by
  rw [h.lprobeExit_eq]
  exact (exitSlots_slot h _).1

/-- `lprobe_exit` empties the running slots. -/
theorem lprobeExit_running (h : LifeOk k g) (hrun : (g.slot i).state = .running) :
    Emptied ((lprobeExit g).slot i) := by
  rw [h.lprobeExit_eq]
  exact ((exitSlots_slot h _).2 i).1 (List.mem_finRange i) hrun

/-- It leaves the other slots alone. -/
theorem lprobeExit_slot (h : LifeOk k g) (hrun : (g.slot i).state ≠ .running) :
    (lprobeExit g).slot i = g.slot i := by
  rw [h.lprobeExit_eq]
  exact ((exitSlots_slot h _).2 i).2 hrun

theorem inits_lprobeExit (g : Proc) : (lprobeExit g).inits = g.inits := by
  have hslot : ∀ (is : List (Fin profThreadMax)) (g : Proc),
      (is.foldl exitSlot g).inits = g.inits := by
    intro is
    induction is with
    | nil => intro _; rfl
    | cons i is ih =>
      intro g
      rw [List.foldl_cons, ih]
      unfold exitSlot
      split
      · rfl
      · split <;> rfl
  unfold Probe.lprobeExit
  split
  · rfl
  · dsimp only
    rw [hslot]
    split <;> rfl

/-! ## The steps -/

/-- What a call does to the table: a registration in an unused slot, the records of a probe, an
exit, or nothing. -/
inductive Effect (g : Proc) : Proc → Prop where
  | idle : Effect g g
  | registers {pid : Int} {id : Fin profThreadMax} {g' : Proc} : g.info.threadNb = id →
      Registers g pid id g' → Effect g g'
  | records {i : Fin profThreadMax} {rs : List ProfRecord} {g' : Proc} :
      (g.slot i).state = .running → Extends g i rs g' → Effect g g'
  | exits : Effect g (Probe.lprobeExit g)

/-- **One call** returns, keeps the invariant, and has one of the effects. -/
theorem lifeOk_step {s : ApiSt} {a : ApiCall} (h : LifeOk k s.proc)
    (hen : apiMachine.Enabled s a) :
    ∃ s', apiMachine.step s a = .ok s' ∧ LifeOk k s'.proc ∧ Effect s.proc s'.proc := by
  cases a with
  | threadInit tid =>
    rcases lprobeThreadInit_cases h.toSlotInv tid with ⟨hg, -⟩ | ⟨g', id, hg, -, hnb, r, hs'⟩
    · exact ⟨s, by simp only [apiMachine, hg], h, .idle⟩
    · refine ⟨{ s with proc := g' }, by simp only [apiMachine, hg], ?_, .registers hnb r⟩
      exact ⟨hs', h.toTableBooked.registers r hen.1 (h.toSlotInv.not_mem_inits hnb),
        r.isError.trans h.isError, r.flog.trans h.flog⟩
  | func c tid call samples =>
    obtain ⟨g', hg, hcase⟩ := lprobeFunc_spec h.toTableOk call samples tid (s.tls c)
    refine ⟨⟨g', Function.update s.tls c (enterProbe tid (s.tls c) s.proc.info).1⟩,
      by simp only [apiMachine, hg], ?_⟩
    rcases he : enterProbe tid (s.tls c) s.proc.info with ⟨tls', _ | i⟩
    · rw [he] at hcase
      cases hcase
      exact ⟨h, .idle⟩
    · rw [he] at hcase
      obtain ⟨l, -, e⟩ := hcase
      obtain ⟨hk, ht⟩ := lprobeFunc_calls hg
      have hinfo := e.info
      refine ⟨⟨e.slotInv h.toSlotInv, h.toTableBooked.extends e hk ht, ?_, ?_⟩,
        .records (enterProbe_running he) e⟩
      · exact (congrArg ProfInfo.isError hinfo).trans h.isError
      · exact (congrArg ProfInfo.flog hinfo).trans h.flog
  | exit => exact ⟨{ s with proc := Probe.lprobeExit s.proc }, rfl, h.lprobeExit, .exits⟩

theorem life_run {s : ApiSt} {acts : List ApiCall} (h : LifeOk k s.proc)
    (hl : apiMachine.Legal s acts) :
    ∃ s', apiMachine.run s acts = .ok s' ∧ LifeOk k s'.proc :=
  hl.run_ok (P := fun _ s => LifeOk k s.proc)
    (fun _ _ _ hP hen => let ⟨s', hs, hok, _⟩ := lifeOk_step hP hen; ⟨s', hs, hok⟩) h

/-! ## Live slots -/

theorem le_sum_slots {M : Type} (f : ProfTinfo → Multiset M) (g : Proc) (i : Fin profThreadMax) :
    f (g.slot i) ≤ ∑ j, f (g.slot j) := by
  rw [sum_slots f g i]
  exact Multiset.le_add_left _ _

theorem LifeOk.liveSlot (h : LifeOk k g) (hrun : (g.slot i).state = .running) : LiveSlot g i := by
  obtain ⟨l, f, hrs⟩ := h.running i hrun
  have hevents := ProfTinfo.events_some hrs.evlist
  refine ⟨by rw [hrs.evlist]; simp, ⟨f, hrs.file, ?_⟩, h.files, fun e he hen => ?_⟩
  · rw [h.files]
    refine Multiset.mem_of_le (le_sum_slots ProfTinfo.handles g i) ?_
    rw [ProfTinfo.handles_some hrs.file]
    exact Multiset.mem_singleton_self _
  · obtain ⟨hopen, -, hpage⟩ := (hrs.coupled e (hevents ▸ he)).enabled hen
    obtain ⟨p, hp⟩ := Option.ne_none_iff_exists'.1 hpage
    refine ⟨hopen, ?_, p, hp, ?_⟩
    · rw [h.accounts.fds]
      exact Multiset.mem_of_le (le_sum_slots (fun t => fdsOfAll t.events) g i)
        (mem_fdsOfAll he hopen)
    · rw [h.accounts.pages]
      exact Multiset.mem_of_le (le_sum_slots (fun t => pagesOfAll t.events) g i)
        (mem_pagesOfAll he hp)

/-- A slot that was initialised and is not running stays so. -/
theorem Effect.not_running (h : LifeOk k g) (e : Effect g g') (hi : i ∈ g.inits)
    (hrun : (g.slot i).state ≠ .running) : i ∈ g'.inits ∧ (g'.slot i).state ≠ .running := by
  cases e with
  | idle => exact ⟨hi, hrun⟩
  | registers hnb r =>
    rw [r.slot_of_mem (h.toSlotInv.not_mem_inits hnb) hi]
    exact ⟨r.mem_inits hi, hrun⟩
  | records hj e =>
    have hne : i ≠ _ := fun e' => hrun (e' ▸ hj)
    rw [e.slot_ne i hne, e.inits]
    exact ⟨hi, hrun⟩
  | exits =>
    rw [lprobeExit_slot h hrun, inits_lprobeExit]
    exact ⟨hi, hrun⟩

theorem Executes.running {s : ApiSt} {a : ApiCall} (h : Executes s a i) :
    (s.proc.slot i).state = .running := by
  obtain ⟨c, tid, call, samples, -, he⟩ := h
  rcases he' : enterProbe tid (s.tls c) s.proc.info with ⟨tls', j⟩
  rw [he'] at he
  cases he
  exact enterProbe_running he'

/-- No call of a run executes `__read_count` on a slot that is initialised and not running. -/
theorem never_executes {s : ApiSt} {acts : List ApiCall} (h : LifeOk k s.proc)
    (hl : apiMachine.Legal s acts) (hi : i ∈ s.proc.inits)
    (hrun : (s.proc.slot i).state ≠ .running) :
    apiMachine.AtEach s acts fun s a => ¬ Executes s a i := by
  induction acts generalizing s with
  | nil => exact Machine.atEach_nil
  | cons a acts ih =>
    obtain ⟨s', hs, hok, he⟩ := lifeOk_step h hl.1
    obtain ⟨hi', hrun'⟩ := he.not_running h hi hrun
    refine Machine.atEach_cons.2 ⟨fun hex => hrun hex.running, fun t ht => ?_⟩
    rw [hs] at ht
    cases ht
    exact ih hok (hl.2 s' hs) hi' hrun'

/-- **Probes only touch live slots.** Whatever the system answers, after an `lprobe_init` that
returned every sequence of registrations, probes and exits returns, `__read_count` is executed
only on a slot with its list, its open file and mapped events, and never again on a slot that an
`lprobe_exit` destroyed. -/
theorem probes_touch_live_slots (k : LawfulKernel) (evlistStr : CStr) (minId maxId freq : Nat)
    (pid r : Int) (mutexOk : Bool) (namelist : Option (List CStr)) (tls : Tls) (g : Proc)
    (hpid : ValidTid pid)
    (hinit : lprobeInit evlistStr minId maxId freq pid mutexOk namelist .initial
      (Proc.initial (Os.boot k.toKernel)) = .ok (r, tls, g))
    (acts : List ApiCall) (hl : apiMachine.Legal (.start tls g) acts) :
    (∃ s, apiMachine.run (.start tls g) acts = .ok s) ∧
    (apiMachine.AtEach (.start tls g) acts fun s a => ∀ i, Executes s a i → LiveSlot s.proc i) ∧
    ∀ pre post s i, acts = pre ++ .exit :: post → apiMachine.run (.start tls g) pre = .ok s →
      Destroys s.proc i →
      ∀ s', apiMachine.step s .exit = .ok s' →
        apiMachine.AtEach s' post fun s a => ¬ Executes s a i := by
  have h0 : LifeOk k (ApiSt.start tls g).proc := lprobeInit_lifeOk hpid hinit
  have hat : ∀ pre post s, acts = pre ++ post → apiMachine.run (.start tls g) pre = .ok s →
      LifeOk k s.proc ∧ apiMachine.Legal s post := by
    rintro pre post s rfl hs
    obtain ⟨s', hs', hok⟩ := life_run h0 hl.append.1
    rw [hs] at hs'
    cases hs'
    exact ⟨hok, hl.append.2 s hs⟩
  obtain ⟨s, hs, -⟩ := life_run h0 hl
  refine ⟨⟨s, hs⟩, fun pre a post s e hr i hex => ?_, ?_⟩
  · exact (hat pre (a :: post) s e hr).1.liveSlot hex.running
  · rintro pre post s i e hr ⟨-, -, hrun⟩ s' hs'
    obtain ⟨hok, hlegal⟩ := hat pre _ s e hr
    cases hs'
    refine never_executes hok.lprobeExit (hlegal.2 _ rfl) ?_ ?_
    · show i ∈ (Probe.lprobeExit s.proc).inits
      rw [inits_lprobeExit]
      exact hok.mem_inits_of_running hrun
    · rw [(lprobeExit_running hok hrun).state]
      simp

/-! ## Release -/

/-- An exit releases everything exactly when no slot has only one of list and file. -/
theorem released_lprobeExit_iff (h : LifeOk k g) :
    Released (Probe.lprobeExit g) ↔
      ∀ i, (g.slot i).evlist.isSome = (g.slot i).outputFile.isSome := by
  have hiff := fun i => (h.state i).running_iff
  constructor
  · intro hrel i
    by_cases hrun : (g.slot i).state = .running
    · obtain ⟨h1, h2⟩ := (hiff i).1 hrun
      rw [h1, h2]
    · obtain ⟨h1, h2⟩ := hrel.slots i
      rw [lprobeExit_slot h hrun] at h1 h2
      rw [h1, h2]
      rfl
  · intro hall
    have hslots : ∀ i, ((Probe.lprobeExit g).slot i).evlist = none ∧
        ((Probe.lprobeExit g).slot i).outputFile = none := by
      intro i
      by_cases hrun : (g.slot i).state = .running
      · have hemp := lprobeExit_running h hrun
        exact ⟨hemp.evlist, hemp.outputFile⟩
      · rw [lprobeExit_slot h hrun]
        have hi := hall i
        rw [hiff i] at hrun
        cases h1 : (g.slot i).evlist <;> cases h2 : (g.slot i).outputFile <;> simp_all
    have hbook := h.lprobeExit.toBooked
    have hevents := fun i => ProfTinfo.events_none (hslots i).1
    have hhandles := fun i => ProfTinfo.handles_none (hslots i).2
    refine ⟨hslots, ?_, ?_, ?_⟩
    · rw [hbook.accounts.fds]
      simp [hevents]
    · rw [hbook.accounts.pages]
      simp [hevents]
    · rw [hbook.files]
      simp [hhandles]

/-- **Exit and partial failures.** After every run that begins with an `lprobe_init` that returned
and leaves `is_error` clear, `lprobe_exit` releases everything if and only if no slot has its list
without its file or its file without its list. -/
theorem released_iff (k : LawfulKernel) (evlistStr : CStr) (minId maxId freq : Nat) (pid r : Int)
    (mutexOk : Bool) (namelist : Option (List CStr)) (tls : Tls) (g : Proc) (hpid : ValidTid pid)
    (hinit : lprobeInit evlistStr minId maxId freq pid mutexOk namelist .initial
      (Proc.initial (Os.boot k.toKernel)) = .ok (r, tls, g))
    (acts : List ApiCall) (hl : apiMachine.Legal (.start tls g) acts) :
    ∃ s, apiMachine.run (.start tls g) acts = .ok s ∧ s.proc.info.isError = false ∧
      (Released (Probe.lprobeExit s.proc) ↔
        ∀ i, (s.proc.slot i).evlist.isSome = (s.proc.slot i).outputFile.isSome) := by
  obtain ⟨s, hs, hok⟩ := life_run (s := .start tls g) (lprobeInit_lifeOk hpid hinit) hl
  exact ⟨s, hs, hok.isError, released_lprobeExit_iff hok⟩

end

/-! ## A thread without a file -/

/-- A lawful kernel that opens one file and no other. -/
def LawfulKernel.oneFile : LawfulKernel :=
  { LawfulKernel.granting with fopen := fun tr => (fileOps tr).isEmpty }

def lawfulInit (k : LawfulKernel) : Except Fault (Int × Tls × Proc) :=
  lprobeInit "cpu-cycles".toList 0 0 0 100 true none .initial (Proc.initial (Os.boot k.toKernel))

def lawfulProc (k : LawfulKernel) : Proc :=
  match lawfulInit k with
  | .ok r => r.2.2
  | .error _ => Proc.initial (Os.boot k.toKernel)

theorem lawfulInit_granting :
    lawfulInit .granting = .ok (0, ⟨some 0, false, 100⟩, lawfulProc .granting) := rfl

theorem lawfulInit_oneFile :
    lawfulInit .oneFile = .ok (0, ⟨some 0, false, 100⟩, lawfulProc .oneFile) := rfl

def lawfulStart (k : LawfulKernel) : ApiSt := .start ⟨some 0, false, 100⟩ (lawfulProc k)

/-- Thread 200 registers, the main thread probes before and after an exit. -/
def lateProbe : List ApiCall :=
  [.threadInit 200, .func 0 100 someCall fun _ => closedPage, .exit,
    .func 0 100 someCall fun _ => closedPage]

theorem legal_lateProbe (s : ApiSt) : apiMachine.Legal s lateProbe :=
  ⟨⟨by decide, by decide⟩, fun _ _ => ⟨trivial, fun _ _ => ⟨trivial, fun _ _ =>
    ⟨trivial, fun _ _ => trivial⟩⟩⟩⟩

theorem probes_touch_live_slots_late :
    (∃ s, apiMachine.run (lawfulStart .granting) lateProbe = .ok s) ∧
    (apiMachine.AtEach (lawfulStart .granting) lateProbe fun s a =>
      ∀ i, Executes s a i → LiveSlot s.proc i) ∧
    ∀ pre post s i, lateProbe = pre ++ .exit :: post →
      apiMachine.run (lawfulStart .granting) pre = .ok s → Destroys s.proc i →
      ∀ s', apiMachine.step s .exit = .ok s' →
        apiMachine.AtEach s' post fun s a => ¬ Executes s a i :=
  probes_touch_live_slots _ _ _ _ _ _ _ _ _ _ _ ⟨by decide, by decide⟩ lawfulInit_granting _
    (legal_lateProbe _)

theorem released_iff_late :
    ∃ s, apiMachine.run (lawfulStart .granting) lateProbe = .ok s ∧ s.proc.info.isError = false ∧
      (Released (lprobeExit s.proc) ↔
        ∀ i, (s.proc.slot i).evlist.isSome = (s.proc.slot i).outputFile.isSome) :=
  released_iff _ _ _ _ _ _ _ _ _ _ _ ⟨by decide, by decide⟩ lawfulInit_granting _
    (legal_lateProbe _)

/-- Thread 200 gets its events but no file: its slot is in state ERROR, and `lprobe_exit` leaves
the events open. -/
theorem exit_skips_error_slot :
    ∃ s, apiMachine.run (lawfulStart .oneFile) [.threadInit 200] = .ok s ∧
      s.proc.info.isError = false ∧ ¬ Released (lprobeExit s.proc) := by
  have h0 : LifeOk .oneFile (lawfulStart .oneFile).proc :=
    lprobeInit_lifeOk ⟨by decide, by decide⟩ lawfulInit_oneFile
  have hl : apiMachine.Legal (lawfulStart .oneFile) [.threadInit 200] :=
    ⟨⟨by decide, by decide⟩, fun _ _ => trivial⟩
  obtain ⟨s, hs, hok⟩ := life_run h0 hl
  refine ⟨s, hs, hok.isError, fun hrel => ?_⟩
  have hboth := (released_lprobeExit_iff hok).1 hrel 1
  cases hs
  exact absurd hboth (by decide)

end Lprofile.Probe
