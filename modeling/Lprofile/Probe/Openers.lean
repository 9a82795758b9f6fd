import Mathlib.Algebra.Order.BigOperators.Group.Finset
import Mathlib.Algebra.Order.BigOperators.Group.List
import Mathlib.Data.Multiset.OrderedMonoid
import Lprofile.Probe.Accounting
import Lprofile.Probe.StartList

/-!
# What a counter counts

A descriptor is a number. Which event of which thread it counts was settled by the
`perf_event_open` that handed it out (`opener`), and whose counter a page shows by its
`mmap` (`mapper`). `Counts tid os e` says that the event `e` was opened for the thread
`tid` with the attributes of `e`, and that the page of `e` is that of its descriptor.

Nothing that is held is handed out again, so what is done to one event is nothing to the
others (`Spared`): a registration makes a slot whose events count for its thread, and
leaves those of the other slots as they were (`CountersOk`).
-/

namespace Lprofile.Probe

open Lprofile.Lib

/-- The descriptor that is handed out, with the thread and the attributes it was asked for. -/
def fdGrant : Syscall → Option (Int × Int × PerfEventAttr)
  | .perfEventOpen pid attr (.ok fd) => some (fd, pid, attr)
  | _ => none

/-- The page that is handed out, with the descriptor it shows. -/
def pageGrant : Syscall → Option (Page × Int)
  | .mmap fd (some p) => some (p, fd)
  | _ => none

/-- The thread and the attributes that the descriptor was opened for. -/
def opener (tr : List Syscall) (fd : Int) : Option (Int × PerfEventAttr) :=
  Ledger.latest fdGrant tr fd

/-- The descriptor whose page this is. -/
def mapper (tr : List Syscall) (p : Page) : Option Int := Ledger.latest pageGrant tr p

structure Counts (tid : Int) (os : Os) (e : ProfEvsel) : Prop where
  opened : e.isOpen = true → opener os.trace e.fd = some (tid, e.attr)
  mapped : ∀ p, e.mmPage = some p → mapper os.trace p = some e.fd

/-- What is in `F` and `P` was not handed out since `os`. -/
structure Spared (F : Multiset Int) (P : Multiset Page) (os os' : Os) : Prop where
  fds : ∀ fd ∈ F, opener os'.trace fd = opener os.trace fd
  pages : ∀ p ∈ P, mapper os'.trace p = mapper os.trace p

section

variable {k : LawfulKernel} {F F' : Multiset Int} {P P' : Multiset Page} {os os' os'' : Os}
  {e : ProfEvsel} {tid : Int}

theorem Spared.refl (os : Os) : Spared F P os os := ⟨fun _ _ => rfl, fun _ _ => rfl⟩

theorem Spared.trans (h : Spared F P os os') (h' : Spared F P os' os'') : Spared F P os os'' :=
  ⟨fun fd hfd => (h'.fds fd hfd).trans (h.fds fd hfd),
    fun p hp => (h'.pages p hp).trans (h.pages p hp)⟩

theorem Spared.mono (h : Spared F P os os') (hF : F' ≤ F) (hP : P' ≤ P) : Spared F' P' os os' :=
  ⟨fun fd hfd => h.fds fd (Multiset.mem_of_le hF hfd),
    fun p hp => h.pages p (Multiset.mem_of_le hP hp)⟩

theorem Spared.of_trace (h : os'.trace = os.trace) : Spared F P os os' := by
  refine ⟨fun _ _ => ?_, fun _ _ => ?_⟩
  · rw [h]
  · rw [h]

/-- A call that hands out nothing. -/
theorem Spared.log (os : Os) {c : Syscall} (hf : fdGrant c = none) (hp : pageGrant c = none) :
    Spared F P os (os.log c) :=
  ⟨fun fd _ => congrFun (Ledger.latest_snoc_none hf) fd,
    fun p _ => congrFun (Ledger.latest_snoc_none hp) p⟩

/-- An event counts the same as long as what it owns is spared. -/
theorem Counts.spared (h : Counts tid os e) (hs : Spared (fdsOf e) (pagesOf e) os os') :
    Counts tid os' e := by
  refine ⟨fun hopen => ?_, fun p hp => ?_⟩
  · rw [hs.fds e.fd (by simp [fdsOf, hopen])]
    exact h.opened hopen
  · rw [hs.pages p (by simp [pagesOf, hp])]
    exact h.mapped p hp

theorem counts_freshEvsel (tid : Int) (os : Os) (name : CStr) (attr : PerfEventAttr) (idx : Nat) :
    Counts tid os (freshEvsel name attr idx) :=
  ⟨fun h => (by cases h), fun _ h => (by cases h)⟩

/-! ## One event -/

theorem Accounts.spared_open (h : Accounts k F P os) {pid : Int} {attr : PerfEventAttr} {fd : Nat}
    (hfd : os.kernel.perfEventOpen os.trace = .ok fd) :
    Spared F P os (os.log (.perfEventOpen pid attr (.ok fd))) := by
  have hfresh : (fd : Int) ∉ F := by
    rw [← h.fds]
    exact k.open_fresh os.trace fd (by rw [← hfd, h.kernel])
  refine ⟨fun a ha => ?_, fun p _ => congrFun (Ledger.latest_snoc_none rfl) p⟩
  exact Ledger.latest_snoc_ne (a := (fd : Int)) (b := (pid, attr)) rfl fun he => hfresh (he ▸ ha)

theorem Accounts.spared_mmap (h : Accounts k F P os) (fd : Int) {p : Page}
    (hp : os.kernel.mmap os.trace = some p) : Spared F P os (os.log (.mmap fd (some p))) := by
  have hfresh : p ∉ P := by
    rw [← h.pages]
    exact k.mmap_fresh os.trace p (by rw [← hp, h.kernel])
  refine ⟨fun a _ => congrFun (Ledger.latest_snoc_none rfl) a, fun q hq => ?_⟩
  exact Ledger.latest_snoc_ne (a := p) (b := fd) rfl fun he => hfresh (he ▸ hq)

/-- Whichever attempt is granted, it asked for the thread and the attributes. -/
theorem OpenRun.spared {pid : Int} {attr : PerfEventAttr} {left : Nat} {res : Except Errno Nat}
    (h : OpenRun pid attr left os os' res) (ha : Accounts k F P os) :
    Spared F P os os' ∧ ∀ fd : Nat, res = .ok fd → opener os'.trace fd = some (pid, attr) := by
  induction h with
  | granted hfd =>
    refine ⟨ha.spared_open hfd, fun fd heq => ?_⟩
    cases heq
    exact Ledger.latest_snoc_self rfl
  | refused => exact ⟨.log _ rfl rfl, nofun⟩
  | noLimit => exact ⟨(Spared.log _ rfl rfl).trans (.log _ rfl rfl), nofun⟩
  | notRaised l =>
    exact ⟨((Spared.log _ rfl rfl).trans (.log _ rfl rfl)).trans (.log _ rfl rfl), nofun⟩
  | retried l _ _ ih =>
    obtain ⟨hs, hopened⟩ := ih (((ha.log rfl rfl).log rfl rfl).log rfl rfl)
    exact ⟨(((Spared.log _ rfl rfl).trans (.log _ rfl rfl)).trans (.log _ rfl rfl)).trans hs,
      hopened⟩

/-- What an operation on one event does for the books of what is counted. -/
structure CountsAfter (tid : Int) (F : Multiset Int) (P : Multiset Page) (os : Os)
    (r : EvselSt) : Prop where
  spared : Spared F P os r.2
  counts : Counts tid r.2 r.1

theorem countsAfter_open (hopen : e.isOpen = false) (h : SelOk k F P (e, os)) (tid : Int) :
    CountsAfter tid F P os (profEvselOpen e tid os).2 := by
  obtain ⟨ho, hacc⟩ := h
  simp only at ho hacc
  have hpage : e.mmPage = none := by
    by_contra hp
    rw [(ho.mapped hp).1] at hopen
    cases hopen
  have hacc' : Accounts k F P os := by simpa [fdsOf, pagesOf, hopen, hpage] using hacc
  obtain ⟨os', res, hrun, heq⟩ := retryOpen_run tid 2 e os
  obtain ⟨hspared, hopened⟩ := hrun.spared hacc'
  have hnone : (openedEvsel e res).mmPage = none := by cases res <;> exact hpage
  rw [profEvselOpen, heq]
  refine ⟨hspared, fun hopen' => ?_, fun p hp => ?_⟩
  · cases res with
    | ok fd => exact hopened fd rfl
    | error err => cases hopen'
  · rw [hnone] at hp
    cases hp

theorem countsAfter_enable (h : SelOk k F P (e, os)) (hc : Counts tid os e) :
    CountsAfter tid F P os (profEvselEnable e os).2 := by
  have hsame : CountsAfter tid F P os (e, os) := ⟨.refl os, hc⟩
  unfold profEvselEnable
  split
  · exact hsame
  · split
    · exact hsame
    · split
      · exact hsame
      · -- the page that is mapped was not held, by this event or any other
        have hlog (c : Syscall) (hf : fdGrant c = none) (hp : pageGrant c = none) (os : Os) :
            Spared (F + fdsOf e) (P + pagesOf e) os (os.log c) := .log os hf hp
        have hacc := h.2.ioctl e.fd .enable
        have hioctl := hlog (.ioctl e.fd .enable) rfl rfl os
        rcases hm : (os.ioctl e.fd .enable).kernel.mmap (os.ioctl e.fd .enable).trace with _ | p
        · have hspared := (hioctl.trans (hlog (.mmap e.fd none) rfl rfl _)).trans
            (hlog (.ioctl e.fd .disable) rfl rfl _)
          simp only [Os.mmap, hm, unmapPage]
          refine ⟨hspared.mono (Multiset.le_add_right _ _) (Multiset.le_add_right _ _), ?_, ?_⟩
          · exact (hc.spared (hspared.mono (Multiset.le_add_left _ _)
              (Multiset.le_add_left _ _))).opened
          · rintro q hq
            cases hq
        · have hspared := hioctl.trans (hacc.spared_mmap e.fd hm)
          simp only [Os.mmap, hm]
          refine ⟨hspared.mono (Multiset.le_add_right _ _) (Multiset.le_add_right _ _), ?_, ?_⟩
          · exact (hc.spared (hspared.mono (Multiset.le_add_left _ _)
              (Multiset.le_add_left _ _))).opened
          · rintro q hq
            cases hq
            exact Ledger.latest_snoc_self rfl

/-! ## Giving back -/

theorem spared_unmapPage (e : ProfEvsel) (os : Os) : Spared F P os (unmapPage e os).2 := by
  unfold unmapPage
  split
  · exact .log os rfl rfl
  · exact .refl os

theorem spared_disable (e : ProfEvsel) (os : Os) : Spared F P os (profEvselDisable e os).2 := by
  unfold profEvselDisable
  split
  · exact .refl os
  · split
    · exact .refl os
    · exact (spared_unmapPage e os).trans (.log _ rfl rfl)

theorem spared_close (e : ProfEvsel) (os : Os) : Spared F P os (profEvselClose e os).2 := by
  have hdisable : Spared F P os (if e.isEnable then profEvselDisable e os else (e, os)).2 := by
    split
    · exact spared_disable e os
    · exact .refl os
  unfold profEvselClose
  generalize (if e.isEnable then profEvselDisable e os else (e, os)) = r at hdisable ⊢
  dsimp only
  split
  · exact .refl os
  · split
    · exact hdisable
    · exact hdisable.trans (.log _ rfl rfl)

theorem spared_forEach_close : ∀ (es : List ProfEvsel) (os : Os),
    Spared F P os (forEach profEvselClose es os).2
  | [], os => .refl os
  | e :: es, os => (spared_close e os).trans (spared_forEach_close es _)

theorem spared_deleteEach : ∀ (es : List ProfEvsel) (os : Os), Spared F P os (deleteEach es os)
  | [], os => .refl os
  | e :: es, os => by
    refine Spared.trans ?_ (spared_deleteEach es (profEvselDelete e os))
    unfold profEvselDelete
    split
    · exact spared_close e os
    · exact .refl os

theorem spared_delete (evlist : ProfEvlist) (os : Os) :
    Spared F P os (profEvlistDelete evlist os) :=
  (spared_forEach_close _ _).trans (spared_deleteEach _ _)

/-! ## A list -/

/-- What an operation on the events of a list does. -/
structure ListCounts (tid : Int) (F : Multiset Int) (P : Multiset Page) (os : Os)
    (es : List ProfEvsel) (os' : Os) : Prop where
  spared : Spared F P os os'
  counts : ∀ e ∈ es, Counts tid os' e

theorem Spared.listCounts {es : List ProfEvsel}
    (hs : Spared (F + fdsOfAll es) (P + pagesOfAll es) os os') (h : ∀ e ∈ es, Counts tid os e) :
    ListCounts tid F P os es os' := by
  refine ⟨hs.mono (Multiset.le_add_right _ _) (Multiset.le_add_right _ _), fun e he => ?_⟩
  have hfds : fdsOf e ≤ fdsOfAll es := List.le_sum_of_mem (List.mem_map_of_mem he)
  have hpages : pagesOf e ≤ pagesOfAll es := List.le_sum_of_mem (List.mem_map_of_mem he)
  exact (h e he).spared (hs.mono (hfds.trans (Multiset.le_add_left _ _))
    (hpages.trans (Multiset.le_add_left _ _)))

/-- The head is done while the tail is the frame; then the tail while the head is. -/
theorem CountsAfter.cons {e' : ProfEvsel} {es es' : List ProfEvsel}
    (hhead : CountsAfter tid (F + fdsOfAll es) (P + pagesOfAll es) os (e', os'))
    (htail : ListCounts tid (F + fdsOf e') (P + pagesOf e') os' es' os'') :
    ListCounts tid F P os (e' :: es') os'' := by
  refine ⟨?_, List.forall_mem_cons.2 ⟨?_, htail.counts⟩⟩
  · exact (hhead.spared.mono (Multiset.le_add_right _ _) (Multiset.le_add_right _ _)).trans
      (htail.spared.mono (Multiset.le_add_right _ _) (Multiset.le_add_right _ _))
  · exact hhead.counts.spared
      (htail.spared.mono (Multiset.le_add_left _ _) (Multiset.le_add_left _ _))

theorem listCounts_openEach (tid : Int) : ∀ {es : List ProfEvsel} {os : Os} {F : Multiset Int}
    {P : Multiset Page}, ListOk k F P es os → (∀ e ∈ es, Counts tid os e) →
      ListCounts tid F P os (openEach tid es os).2.1 (openEach tid es os).2.2
  | [], os, _, _, _, h => ⟨.refl os, h⟩
  | e :: es, os, F, P, hl, h => by
    obtain ⟨he, hes⟩ := List.forall_mem_cons.1 h
    obtain ⟨r, hr⟩ : ∃ r, r = if e.isOpen then (0, e, os) else profEvselOpen e tid os := ⟨_, rfl⟩
    have hhead : CountsAfter tid (F + fdsOfAll es) (P + pagesOfAll es) os r.2 ∧
        SelOk k (F + fdsOfAll es) (P + pagesOfAll es) r.2 := by
      rw [hr]
      cases hopen : e.isOpen with
      | true => exact ⟨⟨.refl os, he⟩, hl.sel⟩
      | false => exact ⟨countsAfter_open hopen hl.sel tid, accounts_profEvselOpen tid hopen hl.sel⟩
    obtain ⟨hcounts, ho, hacc⟩ := hhead
    have hrest := (hcounts.spared.listCounts hes).counts
    simp only [openEach, ← hr]
    by_cases hneg : r.1 < 0
    · simp only [hneg, ↓reduceIte]
      exact hcounts.cons ⟨.refl _, hrest⟩
    · have htail : ListOk k (F + fdsOf r.2.1) (P + pagesOf r.2.1) es r.2.2 := by
        refine ⟨(ListOk.cons.1 hl).2.owned, ?_⟩
        rwa [add_right_comm, add_right_comm P]
      simp only [hneg, ↓reduceIte]
      exact hcounts.cons (listCounts_openEach tid htail hrest)

theorem listCounts_enable {tid : Int} : ∀ {es : List ProfEvsel} {os : Os} {F : Multiset Int}
    {P : Multiset Page}, ListOk k F P es os → (∀ e ∈ es, Counts tid os e) →
      ListCounts tid F P os (forEach (fun e os => (profEvselEnable e os).2) es os).1
        (forEach (fun e os => (profEvselEnable e os).2) es os).2
  | [], os, _, _, _, h => ⟨.refl os, h⟩
  | e :: es, os, F, P, hl, h => by
    obtain ⟨he, hes⟩ := List.forall_mem_cons.1 h
    have hcounts := countsAfter_enable hl.sel he
    obtain ⟨ho, hacc⟩ := keeps_enable k _ _ e os hl.sel
    have htail : ListOk k (F + fdsOf (profEvselEnable e os).2.1)
        (P + pagesOf (profEvselEnable e os).2.1) es (profEvselEnable e os).2.2 := by
      refine ⟨(ListOk.cons.1 hl).2.owned, ?_⟩
      rwa [add_right_comm, add_right_comm P]
    exact hcounts.cons (listCounts_enable htail (hcounts.spared.listCounts hes).counts)

/-- The events of a list that is started count for its thread. -/
theorem listCounts_start {evlist : ProfEvlist} (hl : ListOk k F P evlist.entries os)
    (h : ∀ e ∈ evlist.entries, Counts evlist.pid os e) :
    Spared F P os (profEvlistStart evlist os).2.2 ∧
      (¬ (profEvlistStart evlist os).1 < 0 →
        ∀ e ∈ (profEvlistStart evlist os).2.1.entries,
          Counts evlist.pid (profEvlistStart evlist os).2.2 e) := by
  have hopened := listCounts_openEach evlist.pid hl h
  have hlist := ListOk.openEach evlist.pid hl
  simp only [profEvlistStart]
  split
  · have henabled := listCounts_enable hlist hopened.counts
    exact ⟨hopened.spared.trans henabled.spared, fun _ => henabled.counts⟩
  · rw [closeIfOpen_eq]
    exact ⟨hopened.spared.trans (spared_forEach_close _ _),
      fun h => absurd (Int.negSucc_lt_zero 0) h⟩

/-! ## A slot -/

theorem profEvlistAdd_pid (evlist : ProfEvlist) (str : CStr) :
    (profEvlistAdd evlist str).2.pid = evlist.pid := by
  unfold profEvlistAdd
  split <;> rfl

theorem addLoop_pid (len : Nat) : ∀ (fuel : Nat) (evlist : ProfEvlist) (cur : Nat) (rest : CStr),
    (addLoop len fuel evlist cur rest).2.1.pid = evlist.pid
  | 0, _, _, _ => rfl
  | fuel + 1, evlist, cur, rest => by
    simp only [addLoop]
    split
    · rfl
    · split
      · exact profEvlistAdd_pid evlist _
      · exact (addLoop_pid len fuel _ _ _).trans (profEvlistAdd_pid evlist _)

theorem profEvlistAddFromStr_pid (evlist : ProfEvlist) (str : Option CStr) :
    (profEvlistAddFromStr evlist str).2.pid = evlist.pid := by
  cases str with
  | none => rfl
  | some str =>
    simp only [profEvlistAddFromStr]
    split
    · rfl
    · split
      · exact (profEvlistAdd_pid _ _).trans (addLoop_pid _ _ _ _ _)
      · exact addLoop_pid _ _ _ _ _

/-- `__create_evlist` keeps the tid. -/
theorem createEvlist_tid (info : ProfInfo) (t : ProfTinfo) (os : Os) :
    (createEvlist info t os).2.1.tid = t.tid := by
  obtain ⟨-, ⟨-, he⟩ | ⟨-, _, -, he⟩⟩ := createEvlist_spec info t os
  · rw [he]
  · rw [he]

theorem createEvlist_counts (h : ListOk k F P [] os) {t : ProfTinfo} (ht : t.evlist = none)
    (info : ProfInfo) : Spared F P os (createEvlist info t os).2.2 ∧
      ∀ e ∈ (createEvlist info t os).2.1.events, Counts t.tid (createEvlist info t os).2.2 e := by
  have hnone : ∀ os' : Os, ∀ e ∈ t.events, Counts t.tid os' e := by
    rw [ProfTinfo.events_none ht]
    exact fun _ _ he => (by cases he)
  have hadd : ListOk k F P
      (profEvlistAddFromStr (profEvlistNew t.tid) info.evlistStr).2.entries os :=
    listOk_addFromStr h info.evlistStr
  have hfresh : ∀ e ∈ (profEvlistAddFromStr (profEvlistNew t.tid) info.evlistStr).2.entries,
      Counts t.tid os e :=
    forall_addFromStr (counts_freshEvsel t.tid os) (fun e he => by cases he) info.evlistStr
  have hpid : (profEvlistAddFromStr (profEvlistNew t.tid) info.evlistStr).2.pid = t.tid :=
    profEvlistAddFromStr_pid _ _
  simp only [createEvlist]
  generalize profEvlistAddFromStr (profEvlistNew t.tid) info.evlistStr = a at hadd hfresh hpid ⊢
  split
  · exact ⟨spared_delete _ _, hnone _⟩
  · rw [← hpid] at hfresh
    obtain ⟨hspared, hcounts⟩ := listCounts_start hadd hfresh
    rw [hpid] at hcounts
    split
    · exact ⟨hspared.trans (spared_delete _ _), hnone _⟩
    · rename_i hstart
      exact ⟨hspared, hcounts hstart⟩

theorem spared_fopen (os : Os) (path : CStr) : Spared F P os (os.fopen path).2 := by
  unfold Os.fopen
  split
  · exact (Spared.log os (c := .fopen path true) rfl rfl).trans (.of_trace rfl)
  · exact .log os rfl rfl

theorem initTinfo_counts (h : ListOk k F P [] os) {t : ProfTinfo} (ht : t.evlist = none)
    (info : ProfInfo) : Spared F P os (initTinfo info t os).2 ∧
      ∀ e ∈ (initTinfo info t os).1.events,
        Counts (initTinfo info t os).1.tid (initTinfo info t os).2 e := by
  obtain ⟨hspared, hcounts⟩ := createEvlist_counts h ht info
  obtain ⟨hev, -, htid, hos, -⟩ := initTinfo_fields info t os
  have hfopen (F : Multiset Int) (P : Multiset Page) := spared_fopen (F := F) (P := P)
    (createEvlist info t os).2.2 (outfile (createEvlist info t os).2.1.tid)
  rw [ProfTinfo.events_congr hev, htid, hos, createEvlist_tid]
  rw [createEvlist_tid] at hfopen
  exact ⟨hspared.trans (hfopen F P), fun e he => (hcounts e he).spared (hfopen _ _)⟩

end

/-! ## The table -/

/-- The events of every slot count for its thread. -/
def CountersOk (g : Proc) : Prop :=
  ∀ i, ∀ e ∈ (g.slot i).events, Counts (g.slot i).tid g.os e

section

variable {k : LawfulKernel} {g g' : Proc} {i id : Fin profThreadMax} {tid : Int}

/-- A registration counts for its thread, and the other slots are the frame. -/
theorem CountersOk.registers (h : CountersOk g) (hb : TableBooked k g)
    (r : Registers g tid id g') (hid : id ∉ g.inits) : CountersOk g' := by
  have hslot := r.slot_eq
  have hos := r.os
  have hempty : (g.slot id).events = [] := by
    obtain ⟨old, -, he⟩ := hb.fresh id hid
    rw [he]
    rfl
  rw [hb.slot_stale hid tid] at hslot hos
  have hacc := hb.accounts
  rw [sum_slots (fun t => fdsOfAll t.events) g id, sum_slots (fun t => pagesOfAll t.events) g id,
    hempty] at hacc
  obtain ⟨hspared, hcounts⟩ := initTinfo_counts ⟨fun e he => (by cases he), hacc⟩
    (t := .empty tid) rfl g.info
  rw [← hslot, ← hos] at hcounts
  rw [← hos] at hspared
  intro j e he
  by_cases hj : j = id
  · subst hj
    exact hcounts e he
  · have hmem : j ∈ Finset.univ.erase id := Finset.mem_erase.2 ⟨hj, Finset.mem_univ j⟩
    rw [r.slot_ne j hj] at he ⊢
    refine (h j e he).spared (hspared.mono ?_ ?_)
    · exact (List.le_sum_of_mem (List.mem_map_of_mem he)).trans
        (Finset.single_le_sum (f := fun j => fdsOfAll (g.slot j).events)
          (fun _ _ => Multiset.zero_le _) hmem)
    · exact (List.le_sum_of_mem (List.mem_map_of_mem he)).trans
        (Finset.single_le_sum (f := fun j => pagesOfAll (g.slot j).events)
          (fun _ _ => Multiset.zero_le _) hmem)

/-- A tid in a slot without events. -/
theorem CountersOk.stale (h : CountersOk g) (hb : TableBooked k g) (hid : id ∉ g.inits)
    (tid : Int) : CountersOk (g.setSlot id { g.slot id with tid := tid }) := by
  intro j e he
  by_cases hj : j = id
  · subst hj
    rw [Proc.slot_setSlot_self, hb.slot_stale hid tid] at he
    cases he
  · rw [Proc.slot_setSlot_ne g _ hj] at he ⊢
    exact h j e he

/-- A probe makes no call. -/
theorem CountersOk.extends (h : CountersOk g) {rs : List ProfRecord} (e : Extends g i rs g')
    (ht : g'.os.trace = g.os.trace) : CountersOk g' := by
  intro j x hx
  have hspared : Spared (fdsOf x) (pagesOf x) g.os g'.os := .of_trace ht
  have hev : (g'.slot j).events = (g.slot j).events := by
    by_cases hj : j = i
    · subst hj
      obtain ⟨l, f, f', hrun, hrun', -⟩ := e.slot
      exact ProfTinfo.events_congr (by rw [hrun.evlist, hrun'.evlist])
    · rw [e.slot_ne j hj]
  rw [hev] at hx
  rw [e.tid j]
  exact (h j x hx).spared hspared

end

end Lprofile.Probe
