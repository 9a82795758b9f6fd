import Lprofile.Probe.Evlist
import Lprofile.Probe.EvselRun

/-!
# Descriptor and page accounting of an event list

A selector owns its descriptor while `is_open` is set (`fdsOf`) and its page
while `mm_page` is not NULL (`pagesOf`). `Accounts k F P os` says that the trace
of `os` holds exactly the descriptors `F` and the pages `P`, never closed or
unmapped anything it did not hold, and never got anything twice at once.

Every operation on one selector `Keeps` the accounts, whatever the rest of the
list owns (the frame `F`, `P`); `forEach` and the loops of `prof_evlist__start`
then keep them for the whole list. After `prof_evlist__delete` the list owns
nothing, so every descriptor and every page was given back exactly once.
-/

namespace Lprofile.Probe

open Lprofile.Lib

def fdsOf (e : ProfEvsel) : Multiset Int := if e.isOpen then {e.fd} else 0

def pagesOf (e : ProfEvsel) : Multiset Page :=
  match e.mmPage with
  | some p => {p}
  | none => 0

/-- An open event has a descriptor; a mapped one is open and enabled. -/
structure Owned (e : ProfEvsel) : Prop where
  opened : e.isOpen = true → 0 ≤ e.fd
  mapped : e.mmPage ≠ none → e.isOpen = true ∧ e.isEnable = true

structure Accounts (k : LawfulKernel) (F : Multiset Int) (P : Multiset Page) (os : Os) : Prop where
  kernel : os.kernel = k.toKernel
  fds : openFds os.trace = F
  pages : mappedPages os.trace = P
  fdNoStray : Ledger.NoStray (fdOps os.trace)
  fdFresh : Ledger.Fresh (fdOps os.trace)
  pageNoStray : Ledger.NoStray (pageOps os.trace)
  pageFresh : Ledger.Fresh (pageOps os.trace)

theorem accounts_boot (k : LawfulKernel) : Accounts k 0 0 (Os.boot k.toKernel) where
  kernel := rfl
  fds := rfl
  pages := rfl
  fdNoStray := Ledger.noStray_nil
  fdFresh := Ledger.fresh_nil
  pageNoStray := Ledger.noStray_nil
  pageFresh := Ledger.fresh_nil

/-! ## Single calls -/

section Calls

variable {k : LawfulKernel} {F : Multiset Int} {P : Multiset Page} {os : Os}

theorem fdOps_log (os : Os) (c : Syscall) :
    fdOps (os.log c).trace = fdOps os.trace ++ (fdOp c).toList := by
  cases h : fdOp c <;> simp [fdOps, List.filterMap_append, h]

theorem pageOps_log (os : Os) (c : Syscall) :
    pageOps (os.log c).trace = pageOps os.trace ++ (pageOp c).toList := by
  cases h : pageOp c <;> simp [pageOps, List.filterMap_append, h]

/-- A call that neither takes nor gives back anything. -/
theorem Accounts.log (h : Accounts k F P os) {c : Syscall} (hf : fdOp c = none)
    (hp : pageOp c = none) : Accounts k F P (os.log c) := by
  have ef : fdOps (os.log c).trace = fdOps os.trace := by rw [fdOps_log, hf]; simp
  have ep : pageOps (os.log c).trace = pageOps os.trace := by rw [pageOps_log, hp]; simp
  exact ⟨h.kernel, by rw [openFds, ef]; exact h.fds, by rw [mappedPages, ep]; exact h.pages,
    by rw [ef]; exact h.fdNoStray, by rw [ef]; exact h.fdFresh, by rw [ep]; exact h.pageNoStray,
    by rw [ep]; exact h.pageFresh⟩

/-- A call that only concerns a descriptor. -/
theorem Accounts.logFd (h : Accounts k F P os) {c : Syscall} {op : LedgerOp Int}
    (hf : fdOp c = some op) (hp : pageOp c = none) (hrel : Ledger.RelOk F op)
    (hacq : Ledger.AcqOk F op) : Accounts k (Ledger.post F op) P (os.log c) := by
  have ef : fdOps (os.log c).trace = fdOps os.trace ++ [op] := by rw [fdOps_log, hf]; rfl
  have ep : pageOps (os.log c).trace = pageOps os.trace := by rw [pageOps_log, hp]; simp
  have hF : Ledger.held (fdOps os.trace) = F := h.fds
  refine ⟨h.kernel, ?_, by rw [mappedPages, ep]; exact h.pages, ?_, ?_,
    by rw [ep]; exact h.pageNoStray, by rw [ep]; exact h.pageFresh⟩
  · rw [openFds, ef, Ledger.held_snoc, hF]
  · rw [ef, Ledger.noStray_snoc, hF]; exact ⟨h.fdNoStray, hrel⟩
  · rw [ef, Ledger.fresh_snoc, hF]; exact ⟨h.fdFresh, hacq⟩

/-- A call that only concerns a page. -/
theorem Accounts.logPage (h : Accounts k F P os) {c : Syscall} {op : LedgerOp Page}
    (hf : fdOp c = none) (hp : pageOp c = some op) (hrel : Ledger.RelOk P op)
    (hacq : Ledger.AcqOk P op) : Accounts k F (Ledger.post P op) (os.log c) := by
  have ef : fdOps (os.log c).trace = fdOps os.trace := by rw [fdOps_log, hf]; simp
  have ep : pageOps (os.log c).trace = pageOps os.trace ++ [op] := by rw [pageOps_log, hp]; rfl
  have hP : Ledger.held (pageOps os.trace) = P := h.pages
  refine ⟨h.kernel, by rw [openFds, ef]; exact h.fds, ?_, by rw [ef]; exact h.fdNoStray,
    by rw [ef]; exact h.fdFresh, ?_, ?_⟩
  · rw [mappedPages, ep, Ledger.held_snoc, hP]
  · rw [ep, Ledger.noStray_snoc, hP]; exact ⟨h.pageNoStray, hrel⟩
  · rw [ep, Ledger.fresh_snoc, hP]; exact ⟨h.pageFresh, hacq⟩

theorem Accounts.ioctl (h : Accounts k F P os) (fd : Int) (req : IoctlReq) :
    Accounts k F P (os.ioctl fd req) := h.log rfl rfl

theorem Accounts.close {fd : Int} (h : Accounts k (F + {fd}) P os) :
    Accounts k F P (os.close fd) := by
  have hr : Ledger.RelOk (F + {fd}) (.release fd) := by simp [Ledger.RelOk]
  have h' := h.logFd (c := .close fd) rfl rfl hr trivial
  rwa [Ledger.post_release] at h'

theorem Accounts.munmap {p : Page} (h : Accounts k F (P + {p}) os) :
    Accounts k F P (os.munmap p) := by
  have hr : Ledger.RelOk (P + {p}) (.release p) := by simp [Ledger.RelOk]
  have h' := h.logPage (c := .munmap p) rfl rfl hr trivial
  rwa [Ledger.post_release] at h'

theorem Accounts.perfEventOpen (h : Accounts k F P os) (pid : Int)
    (attr : PerfEventAttr) : match os.perfEventOpen pid attr with
    | (.ok fd, os') => Accounts k (F + {(fd : Int)}) P os'
    | (.error _, os') => Accounts k F P os' := by
  unfold Os.perfEventOpen
  cases hr : os.kernel.perfEventOpen os.trace with
  | ok fd =>
    have hfresh : (fd : Int) ∉ F := by
      rw [← h.fds]
      exact k.open_fresh os.trace fd (by rw [← hr, h.kernel])
    simpa only [Ledger.post_acquire] using
      h.logFd (c := .perfEventOpen pid attr (.ok fd)) rfl rfl trivial hfresh
  | error err => exact h.log rfl rfl

theorem Accounts.mmap (h : Accounts k F P os) (fd : Int) :
    match os.mmap fd with
    | (some p, os') => Accounts k F (P + {p}) os'
    | (none, os') => Accounts k F P os' := by
  unfold Os.mmap
  cases hr : os.kernel.mmap os.trace with
  | some p =>
    have hfresh : p ∉ P := by
      rw [← h.pages]
      exact k.mmap_fresh os.trace p (by rw [← hr, h.kernel])
    simpa only [Ledger.post_acquire] using
      h.logPage (c := .mmap fd (some p)) rfl rfl trivial hfresh
  | none => exact h.log rfl rfl

end Calls

/-! ## Operations on one selector -/

/-- The trace holds what the selector owns, and the frame `F`, `P`. -/
def SelOk (k : LawfulKernel) (F : Multiset Int) (P : Multiset Page) (r : EvselSt) : Prop :=
  Owned r.1 ∧ Accounts k (F + fdsOf r.1) (P + pagesOf r.1) r.2

/-- `f` keeps the accounts, whatever else is held. -/
def Keeps (f : ProfEvsel → Os → ProfEvsel × Os) : Prop :=
  ∀ k F P e os, SelOk k F P (e, os) → SelOk k F P (f e os)

/-- Unmapping gives back the page and nothing else. -/
theorem Accounts.unmapPage {k : LawfulKernel} {F : Multiset Int} {P : Multiset Page}
    {e : ProfEvsel} {os : Os} (h : Accounts k F (P + pagesOf e) os) :
    Accounts k F P (unmapPage e os).2 := by
  unfold Probe.unmapPage
  unfold pagesOf at h
  split
  · rename_i p hp
    rw [hp] at h
    exact h.munmap
  · rename_i hp
    rw [hp] at h
    simpa using h

theorem keeps_disable : Keeps profEvselDisable := by
  rintro k F P e os ⟨ho, h⟩
  simp only at ho h
  have he := profEvselDisable_evsel e os
  by_cases hc : e.isEnable = true ∧ 0 ≤ e.fd
  · obtain ⟨hn, hf⟩ := hc
    have hf' : ¬ e.fd < 0 := by omega
    rw [SelOk, he, if_pos ⟨hn, hf⟩]
    refine ⟨⟨ho.opened, fun h => absurd rfl h⟩, ?_⟩
    simp only [profEvselDisable, hn, hf', Bool.not_true, Bool.false_eq_true, ↓reduceIte]
    simpa [fdsOf, pagesOf] using h.unmapPage.ioctl e.fd .disable
  · rw [SelOk, he, if_neg hc]
    refine ⟨ho, ?_⟩
    have hos : (profEvselDisable e os).2 = os := by
      unfold profEvselDisable
      split
      · rfl
      · rename_i hn
        have : e.fd < 0 := by
          by_contra hf
          exact hc ⟨by simpa using hn, by omega⟩
        simp [this]
    rw [hos]
    exact h

theorem keeps_enable : Keeps fun e os => (profEvselEnable e os).2 := by
  rintro k F P e os ⟨ho, h⟩
  simp only at ho h
  by_cases hc : e.isOpen = true ∧ e.isEnable = false ∧ 0 ≤ e.fd
  · obtain ⟨hopen, hn, hf⟩ := hc
    have hf' : ¬ e.fd < 0 := by omega
    have hp : e.mmPage = none := by
      by_contra hp
      rw [(ho.mapped hp).2] at hn
      cases hn
    have hm := (h.ioctl e.fd .enable).mmap e.fd
    simp only [profEvselEnable, hopen, hn, hf', Bool.not_true, Bool.false_eq_true, ↓reduceIte]
    split
    · rename_i p os' he
      rw [he] at hm
      refine ⟨⟨fun _ => hf, fun _ => ⟨rfl, rfl⟩⟩, ?_⟩
      simpa [fdsOf, pagesOf, hp, hopen] using hm
    · rename_i os' he
      rw [he] at hm
      refine ⟨⟨fun _ => hf, fun h => absurd (by simp [unmapPage_evsel]) h⟩, ?_⟩
      simpa [fdsOf, pagesOf, unmapPage, hp, hopen] using hm.ioctl e.fd .disable
  · have hsame : (profEvselEnable e os).2 = (e, os) := by
      unfold profEvselEnable
      split
      · rfl
      · split
        · rfl
        · split
          · rfl
          · rename_i h1 h2 h3
            exact absurd ⟨by simpa using h1, by simpa using h2, by omega⟩ hc
    simp only [hsame]
    exact ⟨ho, h⟩

theorem keeps_close : Keeps profEvselClose := by
  rintro k F P e os ⟨ho, h⟩
  simp only at ho h
  cases hopen : e.isOpen with
  | false =>
    have hsame : profEvselClose e os = (e, os) := by simp [profEvselClose, hopen]
    rw [hsame]
    exact ⟨ho, h⟩
  | true =>
    have hf := ho.opened hopen
    have hf' : ¬ e.fd < 0 := by omega
    obtain ⟨hd, hacc⟩ : Owned (if e.isEnable then profEvselDisable e os else (e, os)).1 ∧
        Accounts k (F + {e.fd}) P (if e.isEnable then profEvselDisable e os else (e, os)).2 := by
      cases hn : e.isEnable with
      | true =>
        have := keeps_disable k F P e os ⟨ho, h⟩
        unfold SelOk at this
        simp only [profEvselDisable_evsel, hn, hf, and_self, ↓reduceIte] at this ⊢
        simpa [fdsOf, pagesOf, hopen] using this
      | false =>
        have hp : e.mmPage = none := by
          by_contra hp
          rw [(ho.mapped hp).2] at hn
          cases hn
        simpa [fdsOf, pagesOf, hopen, hp] using And.intro ho h
    have hfd : (if e.isEnable then profEvselDisable e os else (e, os)).1.fd = e.fd := by
      split
      · rw [profEvselDisable_evsel]; split <;> rfl
      · rfl
    have he := profEvselClose_evsel e os
    rw [if_pos ⟨hopen, hf⟩] at he
    have hp : (if e.isEnable then none else e.mmPage) = none := by
      by_contra hp
      split at hp
      · exact hp rfl
      · rename_i hn
        exact hn (ho.mapped hp).2
    rw [SelOk, he, hp]
    refine ⟨⟨fun h => by simp at h, fun h => absurd rfl h⟩, ?_⟩
    simp only [profEvselClose, hopen, Bool.not_true, Bool.false_eq_true, ↓reduceIte, hfd, hf',
      fdsOf, pagesOf, add_zero]
    exact hacc.close

/-- Only an open that is granted takes a descriptor. -/
theorem OpenRun.accounts {k : LawfulKernel} {F : Multiset Int} {P : Multiset Page} {pid : Int}
    {attr : PerfEventAttr} {left : Nat} {os os' : Os} {res : Except Errno Nat}
    (h : OpenRun pid attr left os os' res)
    (ha : Accounts k F P os) (e : ProfEvsel) :
    Accounts k (F + fdsOf (openedEvsel e res)) P os' := by
  have hnone : ∀ err : Errno, F + fdsOf (openedEvsel e (.error err)) = F := fun _ => add_zero F
  induction h with
  | granted hr =>
    have hcall := ha.perfEventOpen pid attr
    rwa [Os.perfEventOpen, hr] at hcall
  | refused =>
    rw [hnone]
    exact ha.log rfl rfl
  | noLimit =>
    rw [hnone]
    exact (ha.log rfl rfl).log rfl rfl
  | notRaised l =>
    rw [hnone]
    exact ((ha.log rfl rfl).log rfl rfl).log rfl rfl
  | retried l _ _ ih => exact ih (((ha.log rfl rfl).log rfl rfl).log rfl rfl)

theorem accounts_retryOpen {k : LawfulKernel} {F : Multiset Int} {P : Multiset Page} (pid : Int)
    (left : Nat) {e : ProfEvsel} {os : Os} (hp : e.mmPage = none) (h : Accounts k F P os) :
    SelOk k F P (retryOpen pid left e os).2 := by
  obtain ⟨os', res, hrun, heq⟩ := retryOpen_run pid left e os
  have hpage : (openedEvsel e res).mmPage = none := by cases res <;> exact hp
  have hnone : pagesOf (openedEvsel e res) = 0 := by rw [pagesOf, hpage]
  rw [heq, SelOk, hnone, add_zero]
  refine ⟨⟨fun hopen => ?_, fun h => absurd hpage h⟩, hrun.accounts h e⟩
  cases res with
  | ok fd => exact Int.natCast_nonneg fd
  | error err => cases hopen

theorem accounts_profEvselOpen {k : LawfulKernel} {F : Multiset Int} {P : Multiset Page}
    {e : ProfEvsel} {os : Os} (pid : Int) (hopen : e.isOpen = false) (h : SelOk k F P (e, os)) :
    SelOk k F P (profEvselOpen e pid os).2 := by
  obtain ⟨ho, h⟩ := h
  simp only at ho h
  have hp : e.mmPage = none := by
    by_contra hp
    rw [(ho.mapped hp).1] at hopen
    cases hopen
  have h' : Accounts k F P os := by simpa [fdsOf, pagesOf, hopen, hp] using h
  exact accounts_retryOpen pid 2 hp h'

theorem keeps_closeIfOpen : Keeps closeIfOpen := by
  rintro k F P e os ⟨ho, h⟩
  simp only at ho h
  unfold closeIfOpen
  split
  · exact keeps_close k F P e os ⟨ho, h⟩
  · exact ⟨ho, h⟩

/-! ## The whole list -/

def fdsOfAll (es : List ProfEvsel) : Multiset Int := (es.map fdsOf).sum

def pagesOfAll (es : List ProfEvsel) : Multiset Page := (es.map pagesOf).sum

@[simp] theorem fdsOfAll_nil : fdsOfAll [] = 0 := rfl
@[simp] theorem pagesOfAll_nil : pagesOfAll [] = 0 := rfl

@[simp] theorem fdsOfAll_cons (e : ProfEvsel) (es : List ProfEvsel) :
    fdsOfAll (e :: es) = fdsOf e + fdsOfAll es := by simp [fdsOfAll]

@[simp] theorem pagesOfAll_cons (e : ProfEvsel) (es : List ProfEvsel) :
    pagesOfAll (e :: es) = pagesOf e + pagesOfAll es := by simp [pagesOfAll]

@[simp] theorem fdsOfAll_append (es es' : List ProfEvsel) :
    fdsOfAll (es ++ es') = fdsOfAll es + fdsOfAll es' := by simp [fdsOfAll]

@[simp] theorem pagesOfAll_append (es es' : List ProfEvsel) :
    pagesOfAll (es ++ es') = pagesOfAll es + pagesOfAll es' := by simp [pagesOfAll]

@[simp] theorem fdsOfAll_reverse (es : List ProfEvsel) : fdsOfAll es.reverse = fdsOfAll es := by
  induction es with
  | nil => rfl
  | cons e es ih => simp [ih, add_comm]

@[simp] theorem pagesOfAll_reverse (es : List ProfEvsel) :
    pagesOfAll es.reverse = pagesOfAll es := by
  induction es with
  | nil => rfl
  | cons e es ih => simp [ih, add_comm]

/-- The descriptors owned are the `fd` fields of the open events. -/
theorem fdsOfAll_eq (es : List ProfEvsel) :
    fdsOfAll es = ↑((es.filter (·.isOpen)).map (·.fd)) := by
  induction es with
  | nil => rfl
  | cons e es ih =>
    cases ho : e.isOpen with
    | true =>
      simp only [fdsOfAll_cons, fdsOf, ho, ↓reduceIte, List.filter_cons_of_pos, List.map_cons,
        ← Multiset.cons_coe, ih, Multiset.singleton_add]
    | false => simp [fdsOf, ho, ih]

theorem mem_fdsOfAll {es : List ProfEvsel} {e : ProfEvsel} (he : e ∈ es)
    (hopen : e.isOpen = true) : e.fd ∈ fdsOfAll es := by
  rw [fdsOfAll_eq, Multiset.mem_coe]
  exact List.mem_map_of_mem (List.mem_filter.2 ⟨he, hopen⟩)

theorem mem_pagesOfAll {es : List ProfEvsel} {e : ProfEvsel} {p : Page} (he : e ∈ es)
    (hp : e.mmPage = some p) : p ∈ pagesOfAll es := by
  induction es with
  | nil => cases he
  | cons x es ih =>
    rw [pagesOfAll_cons, Multiset.mem_add]
    rcases List.mem_cons.1 he with rfl | he
    · left
      unfold pagesOf
      rw [hp]
      exact Multiset.mem_singleton_self p
    · exact .inr (ih he)

/-- The list owns exactly what the trace holds, with the frame `F`, `P`. -/
structure ListOk (k : LawfulKernel) (F : Multiset Int) (P : Multiset Page) (es : List ProfEvsel)
    (os : Os) : Prop where
  owned : ∀ e ∈ es, Owned e
  accounts : Accounts k (F + fdsOfAll es) (P + pagesOfAll es) os

section Loops

variable {k : LawfulKernel} {F : Multiset Int} {P : Multiset Page}

theorem ListOk.cons {e : ProfEvsel} {es : List ProfEvsel} {os : Os} :
    ListOk k F P (e :: es) os ↔ Owned e ∧ ListOk k (F + fdsOf e) (P + pagesOf e) es os := by
  constructor
  · intro h
    exact ⟨h.owned e List.mem_cons_self, fun x hx => h.owned x (List.mem_cons_of_mem _ hx),
      by simpa [add_assoc] using h.accounts⟩
  · rintro ⟨ho, h⟩
    refine ⟨fun x hx => ?_, by simpa [add_assoc] using h.accounts⟩
    rcases List.mem_cons.1 hx with rfl | hx
    · exact ho
    · exact h.owned x hx

/-- The head, with the others as the frame. -/
theorem ListOk.sel {e : ProfEvsel} {es : List ProfEvsel} {os : Os}
    (h : ListOk k F P (e :: es) os) :
    SelOk k (F + fdsOfAll es) (P + pagesOfAll es) (e, os) := by
  have hacc := h.accounts
  rw [fdsOfAll_cons, pagesOfAll_cons, add_comm (fdsOf e), add_comm (pagesOf e), ← add_assoc,
    ← add_assoc] at hacc
  exact ⟨h.owned e List.mem_cons_self, hacc⟩

/-- One selector of the list is replaced, the others are the frame. -/
theorem ListOk.head {e e' : ProfEvsel} {es : List ProfEvsel} {os os' : Os}
    (h : ListOk k F P (e :: es) os)
    (hstep : ∀ G Q, SelOk k G Q (e, os) → SelOk k G Q (e', os')) : ListOk k F P (e' :: es) os' := by
  obtain ⟨ho, hacc'⟩ := hstep _ _ h.sel
  refine ⟨fun x hx => ?_, ?_⟩
  · rcases List.mem_cons.1 hx with rfl | hx
    · exact ho
    · exact h.owned x (List.mem_cons_of_mem _ hx)
  · rwa [fdsOfAll_cons, pagesOfAll_cons, add_comm (fdsOf e'), add_comm (pagesOf e'), ← add_assoc,
      ← add_assoc]

theorem ListOk.forEach {f : ProfEvsel → Os → ProfEvsel × Os} (hf : Keeps f) :
    ∀ {es : List ProfEvsel} {os : Os} {F : Multiset Int} {P : Multiset Page}, ListOk k F P es os →
      ListOk k F P (forEach f es os).1 (forEach f es os).2
  | [], _, _, _, h => h
  | e :: es, os, F, P, h => by
    have h1 : ListOk k F P ((f e os).1 :: es) (f e os).2 := h.head fun G Q => hf k G Q e os
    obtain ⟨ho, h1⟩ := ListOk.cons.1 h1
    exact ListOk.cons.2 ⟨ho, ListOk.forEach hf h1⟩

theorem ListOk.openEach (pid : Int) :
    ∀ {es : List ProfEvsel} {os : Os} {F : Multiset Int} {P : Multiset Page}, ListOk k F P es os →
      ListOk k F P (openEach pid es os).2.1 (openEach pid es os).2.2
  | [], _, _, _, h => h
  | e :: es, os, F, P, h => by
    obtain ⟨r, hr⟩ : ∃ r, r = if e.isOpen then (0, e, os) else profEvselOpen e pid os := ⟨_, rfl⟩
    have h1 : ListOk k F P (r.2.1 :: es) r.2.2 := by
      refine h.head fun G Q hsel => ?_
      rw [hr]
      cases hopen : e.isOpen with
      | true => exact hsel
      | false => exact accounts_profEvselOpen pid hopen hsel
    simp only [Probe.openEach, ← hr]
    by_cases hneg : r.1 < 0
    · simp only [hneg, ↓reduceIte]
      exact h1
    · obtain ⟨ho1, h1⟩ := ListOk.cons.1 h1
      simp only [hneg, ↓reduceIte]
      exact ListOk.cons.2 ⟨ho1, ListOk.openEach pid h1⟩

theorem ListOk.reverse {es : List ProfEvsel} {os : Os} (h : ListOk k F P es os) :
    ListOk k F P es.reverse os :=
  ⟨fun e he => h.owned e (List.mem_reverse.1 he), by simpa using h.accounts⟩

end Loops

/-! ## Whole runs -/

inductive EvlistOp where
  | addFromStr (str : Option CStr)
  | start
  | stop

def EvlistOp.apply (s : ProfEvlist × Os) : EvlistOp → ProfEvlist × Os
  | .addFromStr str => ((profEvlistAddFromStr s.1 str).2, s.2)
  | .start => (profEvlistStart s.1 s.2).2
  | .stop => profEvlistStop s.1 s.2

def evlistRun (s : ProfEvlist × Os) (ops : List EvlistOp) : ProfEvlist × Os :=
  ops.foldl EvlistOp.apply s

section Ops

variable {k : LawfulKernel} {F : Multiset Int} {P : Multiset Page}

/-- `__prof_evlist__add` appends at most one selector that owns nothing. -/
theorem listOk_profEvlistAdd {evlist : ProfEvlist} {os : Os} (h : ListOk k F P evlist.entries os)
    (str : CStr) : ListOk k F P (profEvlistAdd evlist str).2.entries os := by
  unfold profEvlistAdd
  split
  · exact h
  · rename_i name attr _
    refine ⟨fun e he => ?_, by simpa [fdsOf, pagesOf, profEvselInit, profEvselNew] using h.accounts⟩
    rcases List.mem_append.1 he with he | he
    · exact h.owned e he
    · rw [List.mem_singleton] at he
      subst he
      exact ⟨fun h => (by cases h), fun h => absurd rfl h⟩

theorem listOk_addLoop {len : Nat} {os : Os} :
    ∀ {fuel : Nat} {evlist : ProfEvlist} {cur : Nat} {rest : CStr},
      ListOk k F P evlist.entries os →
      ListOk k F P (addLoop len fuel evlist cur rest).2.1.entries os
  | 0, _, _, _, h => h
  | fuel + 1, evlist, cur, rest, h => by
    simp only [addLoop]
    split
    · exact h
    · split
      · exact listOk_profEvlistAdd h _
      · exact listOk_addLoop (listOk_profEvlistAdd h _)

theorem listOk_addFromStr {evlist : ProfEvlist} {os : Os} (h : ListOk k F P evlist.entries os)
    (str : Option CStr) : ListOk k F P (profEvlistAddFromStr evlist str).2.entries os := by
  cases str with
  | none => exact h
  | some str =>
    have hl : ListOk k F P (addLoop str.length str.length evlist 0 str).2.1.entries os :=
      listOk_addLoop h
    simp only [profEvlistAddFromStr]
    split
    · exact h
    · split
      · exact listOk_profEvlistAdd hl _
      · exact hl

theorem listOk_start {evlist : ProfEvlist} {os : Os} (h : ListOk k F P evlist.entries os) :
    ListOk k F P (profEvlistStart evlist os).2.1.entries (profEvlistStart evlist os).2.2 := by
  have ho := ListOk.openEach evlist.pid h
  unfold profEvlistStart
  dsimp only
  split
  · exact ho.forEach keeps_enable
  · exact ho.forEach keeps_closeIfOpen

theorem listOk_apply {s : ProfEvlist × Os} (h : ListOk k F P s.1.entries s.2) (op : EvlistOp) :
    ListOk k F P (op.apply s).1.entries (op.apply s).2 := by
  cases op with
  | addFromStr str => exact listOk_addFromStr h str
  | start => exact listOk_start h
  | stop => exact h.forEach keeps_disable

theorem listOk_run {s : ProfEvlist × Os} (h : ListOk k F P s.1.entries s.2)
    (ops : List EvlistOp) : ListOk k F P (evlistRun s ops).1.entries (evlistRun s ops).2 := by
  induction ops generalizing s with
  | nil => exact h
  | cons op ops ih => exact ih (listOk_apply h op)

/-- A closed selector owns nothing. -/
theorem profEvselClose_owns {e : ProfEvsel} (ho : Owned e) (os : Os) :
    (profEvselClose e os).1.isOpen = false ∧ (profEvselClose e os).1.mmPage = none := by
  rw [profEvselClose_evsel]
  split
  · refine ⟨rfl, ?_⟩
    by_contra hp
    simp only at hp
    split at hp
    · exact hp rfl
    · rename_i hn
      exact hn (ho.mapped hp).2
  · rename_i hc
    have hopen : e.isOpen = false := by
      cases hopen : e.isOpen with
      | false => rfl
      | true => exact absurd ⟨hopen, ho.opened hopen⟩ hc
    refine ⟨hopen, ?_⟩
    by_contra hp
    rw [(ho.mapped hp).1] at hopen
    cases hopen

theorem forEach_close_owns :
    ∀ {es : List ProfEvsel} {os : Os}, (∀ e ∈ es, Owned e) →
      ∀ e ∈ (forEach profEvselClose es os).1, e.isOpen = false ∧ e.mmPage = none
  | [], _, _, e, he => by cases he
  | x :: es, os, h, e, he => by
    rcases List.mem_cons.1 he with rfl | he
    · exact profEvselClose_owns (h x List.mem_cons_self) os
    · exact forEach_close_owns (fun y hy => h y (List.mem_cons_of_mem _ hy)) e he

theorem deleteEach_closed : ∀ {es : List ProfEvsel} {os : Os},
    (∀ e ∈ es, e.isOpen = false) → deleteEach es os = os
  | [], _, _ => rfl
  | e :: es, os, h => by
    have he : profEvselDelete e os = os := by simp [profEvselDelete, h e List.mem_cons_self]
    rw [deleteEach, he, deleteEach_closed fun x hx => h x (List.mem_cons_of_mem _ hx)]

theorem ownsAll_zero {es : List ProfEvsel} (h : ∀ e ∈ es, e.isOpen = false ∧ e.mmPage = none) :
    fdsOfAll es = 0 ∧ pagesOfAll es = 0 := by
  induction es with
  | nil => exact ⟨rfl, rfl⟩
  | cons e es ih =>
    obtain ⟨h1, h2⟩ := h e List.mem_cons_self
    obtain ⟨i1, i2⟩ := ih fun x hx => h x (List.mem_cons_of_mem _ hx)
    simp [fdsOf, pagesOf, h1, h2, i1, i2]

/-- After `prof_evlist__delete` the list holds nothing. -/
theorem accounts_delete {evlist : ProfEvlist} {os : Os} (h : ListOk k F P evlist.entries os) :
    Accounts k F P (profEvlistDelete evlist os) := by
  have hc := h.reverse.forEach keeps_close
  have hz : ∀ e ∈ (forEach profEvselClose evlist.entries.reverse os).1,
      e.isOpen = false ∧ e.mmPage = none := forEach_close_owns h.reverse.owned
  have hd : profEvlistDelete evlist os =
      (forEach profEvselClose evlist.entries.reverse os).2 := by
    unfold profEvlistDelete forEachReverse
    exact deleteEach_closed fun e he => (hz e (List.mem_reverse.1 he)).1
  obtain ⟨z1, z2⟩ := ownsAll_zero hz
  rw [hd]
  simpa [z1, z2] using hc.accounts

end Ops

/-- **Descriptor and page accounting.** After every call of a run on a new list the open
descriptors are the `fd` fields of the open events, without repetition. After the final
`prof_evlist__delete` nothing is held, nothing was ever closed or unmapped that was not held, and
seen from any descriptor or page the trace is a sequence of acquire-release pairs. -/
theorem evlist_run_accounts (k : LawfulKernel) (pid : Int) (ops : List EvlistOp) :
    (∀ pre, pre <+: ops →
      let s := evlistRun (profEvlistNew pid, Os.boot k.toKernel) pre
      openFds s.2.trace = ↑((s.1.entries.filter (·.isOpen)).map (·.fd)) ∧
        ((s.1.entries.filter (·.isOpen)).map (·.fd)).Nodup) ∧
    let s := evlistRun (profEvlistNew pid, Os.boot k.toKernel) ops
    let tr := (profEvlistDelete s.1 s.2).trace
    (openFds tr = 0 ∧ mappedPages tr = 0) ∧
    (Ledger.NoStray (fdOps tr) ∧ Ledger.NoStray (pageOps tr)) ∧
    (∀ fd, ∃ n, (fdOps tr).filter (Ledger.on fd) =
      (List.replicate n [.acquire fd, .release fd]).flatten) ∧
    ∀ p, ∃ n, (pageOps tr).filter (Ledger.on p) =
      (List.replicate n [.acquire p, .release p]).flatten := by
  have h0 : ListOk k 0 0 (profEvlistNew pid).entries (Os.boot k.toKernel) :=
    ⟨fun e he => (by cases he), accounts_boot k⟩
  constructor
  · intro pre _
    have h := (listOk_run (s := (profEvlistNew pid, Os.boot k.toKernel)) h0 pre).accounts
    simp only [zero_add, fdsOfAll_eq] at h
    refine ⟨h.fds, ?_⟩
    have hnd := Ledger.held_nodup h.fdFresh
    rw [← openFds, h.fds] at hnd
    exact Multiset.coe_nodup.1 hnd
  · have h := accounts_delete (listOk_run (s := (profEvlistNew pid, Os.boot k.toKernel)) h0 ops)
    exact ⟨⟨h.fds, h.pages⟩, ⟨h.fdNoStray, h.pageNoStray⟩,
      Ledger.filter_eq_pairs h.fdNoStray h.fdFresh h.fds,
      Ledger.filter_eq_pairs h.pageNoStray h.pageFresh h.pages⟩

end Lprofile.Probe
