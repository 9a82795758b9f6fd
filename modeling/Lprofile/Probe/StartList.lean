import Lprofile.Probe.EvlistRun

/-!
# Starting an event list

`prof_evlist__start` opens the events of a list and then enables them. If an open
fails it closes what is open and returns -1; the return values of
`prof_evsel__enable` are only logged.

Nothing is left open after a failure. What is left is `is_enable`, which
`prof_evsel__disable` never clears: after a failed start or a stop the bit stays
set without a page, and a later start takes the event for enabled. A start is all
or nothing exactly where no such bit is in the way and no `mmap` fails
(`start_all_or_nothing_iff`).
-/

namespace Lprofile.Probe

open Lprofile.Lib

/-! ## Answers that are refused -/

/-- Was a `perf_event_open` granted? -/
def openAnswer : Syscall → Option Bool
  | .perfEventOpen _ _ (.ok _) => some true
  | .perfEventOpen _ _ (.error _) => some false
  | _ => none

/-- The last `perf_event_open` failed. -/
def OpenRefused (cs : List Syscall) : Prop := (cs.filterMap openAnswer).getLast? = some false

/-- Some `mmap` failed. -/
def MapRefused (cs : List Syscall) : Prop := ∃ fd, .mmap fd none ∈ cs

section

variable {os os' : Os} {cs cs' : List Syscall}

theorem calls_mmap {fd : Int} {r : Option Page} (h : os.mmap fd = (r, os')) :
    Calls os [.mmap fd r] os' := by
  cases h
  rfl

theorem mapRefused_append : MapRefused (cs ++ cs') ↔ MapRefused cs ∨ MapRefused cs' := by
  unfold MapRefused
  simp only [List.mem_append, exists_or]

theorem openRefused_append : OpenRefused (cs ++ cs') ↔
    OpenRefused cs' ∨ cs'.filterMap openAnswer = [] ∧ OpenRefused cs := by
  unfold OpenRefused
  rw [List.filterMap_append, List.getLast?_append]
  rcases h : (cs'.filterMap openAnswer).getLast? with _ | b
  · rw [List.getLast?_eq_none_iff] at h
    simp [h]
  · have hne : cs'.filterMap openAnswer ≠ [] := by
      rintro e
      rw [e] at h
      cases h
    simp [hne]

end

/-! ## Opening -/

theorem openAnswer_eq (c : Syscall) : openAnswer c = (attempt c).map Except.toBool := by
  cases c with
  | perfEventOpen pid attr r => cases r <;> rfl
  | _ => rfl

/-- The last attempt decides. -/
theorem retryOpen_calls (pid : Int) (left : Nat) (e : ProfEvsel) (os : Os) :
    ∃ cs, Calls os cs (retryOpen pid left e os).2.2 ∧ ¬ MapRefused cs ∧
      cs.filterMap openAnswer ≠ [] ∧ (OpenRefused cs ↔ (retryOpen pid left e os).1 < 0) := by
  obtain ⟨os', res, hrun, heq⟩ := retryOpen_run pid left e os
  obtain ⟨cs, hcs, hmap, ⟨k, -, hattempts⟩, -⟩ := hrun.calls
  have hanswers : cs.filterMap openAnswer =
      (List.replicate k (Except.error EMFILE) ++ [res]).map Except.toBool := by
    rw [← hattempts, attempts, List.map_filterMap]
    exact congrArg (List.filterMap · cs) (funext openAnswer_eq)
  rw [heq]
  refine ⟨cs, hcs, fun ⟨fd, hfd⟩ => hmap fd none hfd, by simp [hanswers], ?_⟩
  rw [OpenRefused, hanswers, List.map_append, List.map_singleton, List.getLast?_concat]
  cases res with
  | ok fd => simp [openReturn, Except.toBool]
  | error err => exact iff_of_true rfl (openReturn_error_neg err)

/-! ## The first loop -/

/-- The first loop of a start: it stops at the event whose open is refused, and leaves `is_enable`
and the pages alone. -/
theorem openEach_calls (pid : Int) : ∀ (es : List ProfEvsel) (os : Os),
    ∃ cs, Calls os cs (openEach pid es os).2.2 ∧ ¬ MapRefused cs ∧
      (OpenRefused cs ↔ (openEach pid es os).1 = false) ∧
      List.Forall₂ (fun e e' => e'.isEnable = e.isEnable ∧ e'.mmPage = e.mmPage) es
        (openEach pid es os).2.1 ∧
      ((openEach pid es os).1 = true → ∀ e ∈ (openEach pid es os).2.1, e.isOpen = true)
  | [], os => ⟨[], .refl os, by simp [MapRefused], by simp [OpenRefused, openEach], .nil,
      fun _ e he => (by cases he)⟩
  | e :: es, os => by
    -- the event at the head: nothing is asked if it is open
    obtain ⟨r, hr⟩ : ∃ r, r = if e.isOpen then (0, e, os) else profEvselOpen e pid os := ⟨_, rfl⟩
    have hhead : ∃ cs, Calls os cs r.2.2 ∧ ¬ MapRefused cs ∧ (OpenRefused cs ↔ r.1 < 0) ∧
        (r.2.1.isEnable = e.isEnable ∧ r.2.1.mmPage = e.mmPage) ∧
        (¬ r.1 < 0 → r.2.1.isOpen = true) := by
      cases ho : e.isOpen with
      | true =>
        rw [hr, ho]
        exact ⟨[], .refl os, by simp [MapRefused], by simp [OpenRefused], ⟨rfl, rfl⟩, fun _ => ho⟩
      | false =>
        obtain ⟨cs, hcs, hmap, -, hlast⟩ := retryOpen_calls pid 2 e os
        rw [hr, ho]
        refine ⟨cs, hcs, hmap, hlast, ?_⟩
        rcases retryOpen_evsel pid 2 e os with ⟨fd, h0, he⟩ | ⟨hneg, he⟩
        · simp only [Bool.false_eq_true, ↓reduceIte, profEvselOpen, he]
          exact ⟨⟨trivial, trivial⟩, fun _ => trivial⟩
        · simp only [Bool.false_eq_true, ↓reduceIte, profEvselOpen, he]
          exact ⟨⟨trivial, trivial⟩, fun h => absurd hneg h⟩
    obtain ⟨cs, hcs, hmap, hlast, hsame, hopen⟩ := hhead
    simp only [openEach, ← hr]
    by_cases hneg : r.1 < 0
    · rw [if_pos hneg]
      refine ⟨cs, hcs, hmap, iff_of_true (hlast.2 hneg) rfl, .cons hsame ?_, fun h => (by cases h)⟩
      exact List.forall₂_same.2 fun x _ => ⟨rfl, rfl⟩
    · obtain ⟨cs', hcs', hmap', hlast', hsame', hopen'⟩ := openEach_calls pid es r.2.2
      rw [if_neg hneg]
      refine ⟨cs ++ cs', hcs.trans hcs', ?_, ?_, .cons hsame hsame', fun h x hx => ?_⟩
      · rw [mapRefused_append]
        exact not_or.2 ⟨hmap, hmap'⟩
      · rw [openRefused_append, or_iff_left fun h => hneg (hlast.1 h.2), hlast']
      · rcases List.mem_cons.1 hx with rfl | hx
        · exact hopen hneg
        · exact hopen' h x hx

/-! ## Enabling -/

/-- Open, enabled and mapped. -/
structure Started (e : ProfEvsel) : Prop where
  isOpen : e.isOpen = true
  isEnable : e.isEnable = true
  mapped : e.mmPage ≠ none

/-- `is_enable` is set only where there is a page. -/
def NotStale (e : ProfEvsel) : Prop := e.isEnable = true → e.mmPage ≠ none

theorem profEvselEnable_calls (e : ProfEvsel) (os : Os) :
    ∃ cs, Calls os cs (profEvselEnable e os).2.2 ∧ cs.filterMap openAnswer = [] ∧
      (e.isOpen = true → 0 ≤ e.fd →
        (Started (profEvselEnable e os).2.1 ↔ NotStale e ∧ ¬ MapRefused cs)) := by
  cases ho : e.isOpen with
  | false =>
    simp only [profEvselEnable, ho, Bool.not_false, ↓reduceIte]
    exact ⟨[], .refl os, rfl, fun h => (by cases h)⟩
  | true =>
    cases hn : e.isEnable with
    | true =>
      simp only [profEvselEnable, ho, hn, Bool.not_true, Bool.false_eq_true, ↓reduceIte]
      refine ⟨[], .refl os, rfl, fun _ _ => ⟨fun h => ⟨fun _ => h.mapped, by simp [MapRefused]⟩,
        fun h => ⟨ho, hn, h.1 hn⟩⟩⟩
    | false =>
      have hfresh : NotStale e := fun h => by rw [hn] at h; cases h
      by_cases hf : e.fd < 0
      · simp only [profEvselEnable, ho, hn, hf, Bool.not_true, Bool.false_eq_true, ↓reduceIte]
        exact ⟨[], .refl os, rfl, fun _ h => absurd hf (by omega)⟩
      rcases hm : (os.ioctl e.fd .enable).mmap e.fd with ⟨_ | p, os'⟩
      · simp only [profEvselEnable, ho, hn, hf, hm, Bool.not_true, Bool.false_eq_true, ↓reduceIte,
          unmapPage]
        refine ⟨[.ioctl e.fd .enable, .mmap e.fd none, .ioctl e.fd .disable],
          ((Calls.log os _).trans (calls_mmap hm)).trans (.log os' _), rfl,
          fun _ _ => ⟨fun h => absurd rfl h.mapped, fun h => absurd ⟨e.fd, by simp⟩ h.2⟩⟩
      · simp only [profEvselEnable, ho, hn, hf, hm, Bool.not_true, Bool.false_eq_true, ↓reduceIte]
        exact ⟨[.ioctl e.fd .enable, .mmap e.fd (some p)], (Calls.log os _).trans (calls_mmap hm),
          rfl, fun _ _ => iff_of_true ⟨rfl, rfl, by simp⟩ ⟨hfresh, by simp [MapRefused]⟩⟩

theorem forEach_enable_calls : ∀ (es : List ProfEvsel) (os : Os),
    ∃ cs, Calls os cs (forEach (fun e os => (profEvselEnable e os).2) es os).2 ∧
      cs.filterMap openAnswer = [] ∧
      ((∀ e ∈ es, e.isOpen = true ∧ 0 ≤ e.fd) →
        ((∀ e ∈ (forEach (fun e os => (profEvselEnable e os).2) es os).1, Started e) ↔
          (∀ e ∈ es, NotStale e) ∧ ¬ MapRefused cs))
  | [], os => ⟨[], .refl os, rfl, fun _ => by simp [forEach, MapRefused]⟩
  | e :: es, os => by
    obtain ⟨cs, hcs, hans, hiff⟩ := profEvselEnable_calls e os
    obtain ⟨cs', hcs', hans', hiff'⟩ := forEach_enable_calls es (profEvselEnable e os).2.2
    refine ⟨cs ++ cs', hcs.trans hcs', by rw [List.filterMap_append, hans, hans']; rfl, fun h => ?_⟩
    obtain ⟨⟨ho, hf⟩, hrest⟩ := List.forall_mem_cons.1 h
    simp only [forEach, List.forall_mem_cons, hiff ho hf, hiff' hrest, mapRefused_append, not_or]
    exact and_and_and_comm

/-! ## Closing -/

theorem unmapPage_calls (e : ProfEvsel) (os : Os) :
    ∃ cs, Calls os cs (unmapPage e os).2 ∧ cs.filterMap openAnswer = [] := by
  unfold unmapPage
  split
  · exact ⟨_, .log os _, rfl⟩
  · exact ⟨[], .refl os, rfl⟩

theorem profEvselDisable_calls (e : ProfEvsel) (os : Os) :
    ∃ cs, Calls os cs (profEvselDisable e os).2 ∧ cs.filterMap openAnswer = [] := by
  unfold profEvselDisable
  split
  · exact ⟨[], .refl os, rfl⟩
  · split
    · exact ⟨[], .refl os, rfl⟩
    · obtain ⟨cs, hcs, hans⟩ := unmapPage_calls e os
      exact ⟨_, hcs.trans (.log _ _), by rw [List.filterMap_append, hans]; rfl⟩

theorem profEvselClose_calls (e : ProfEvsel) (os : Os) :
    ∃ cs, Calls os cs (profEvselClose e os).2 ∧ cs.filterMap openAnswer = [] := by
  have hdisable : ∃ cs, Calls os cs (if e.isEnable then profEvselDisable e os else (e, os)).2 ∧
      cs.filterMap openAnswer = [] := by
    split
    · exact profEvselDisable_calls e os
    · exact ⟨[], .refl os, rfl⟩
  unfold profEvselClose
  dsimp only
  generalize (if e.isEnable then profEvselDisable e os else (e, os)) = r at hdisable ⊢
  obtain ⟨cs, hcs, hans⟩ := hdisable
  split
  · exact ⟨[], .refl os, rfl⟩
  · split
    · exact ⟨cs, hcs, hans⟩
    · exact ⟨_, hcs.trans (.log _ _), by rw [List.filterMap_append, hans]; rfl⟩

theorem closeIfOpen_eq : closeIfOpen = profEvselClose := by
  funext e os
  unfold closeIfOpen
  cases ho : e.isOpen with
  | true => rfl
  | false => simp [profEvselClose, ho]

/-- Closing keeps `is_enable`. -/
theorem profEvselClose_isEnable (e : ProfEvsel) (os : Os) :
    (profEvselClose e os).1.isEnable = e.isEnable := by
  rw [profEvselClose_evsel]
  split
  · rfl
  · rfl

theorem forEach_close_calls : ∀ (es : List ProfEvsel) (os : Os),
    ∃ cs, Calls os cs (forEach profEvselClose es os).2 ∧ cs.filterMap openAnswer = [] ∧
      ((∀ e ∈ (forEach profEvselClose es os).1, e.isEnable = false) ↔
        ∀ e ∈ es, e.isEnable = false)
  | [], os => ⟨[], .refl os, rfl, Iff.rfl⟩
  | e :: es, os => by
    obtain ⟨cs, hcs, hans⟩ := profEvselClose_calls e os
    obtain ⟨cs', hcs', hans', hiff⟩ := forEach_close_calls es (profEvselClose e os).2
    refine ⟨cs ++ cs', hcs.trans hcs', by rw [List.filterMap_append, hans, hans']; rfl, ?_⟩
    simp only [forEach, List.forall_mem_cons, hiff, profEvselClose_isEnable]

/-! ## Starting -/

/-- A start fails iff an open is refused. -/
theorem profEvlistStart_neg_iff (evlist : ProfEvlist) (os : Os) :
    (profEvlistStart evlist os).1 < 0 ↔
      OpenRefused (callsSince os (profEvlistStart evlist os).2.2) := by
  obtain ⟨cs, hcs, -, hrefused, -⟩ := openEach_calls evlist.pid evlist.entries os
  rcases hq : openEach evlist.pid evlist.entries os with ⟨granted, es, os1⟩
  simp only [hq] at hcs hrefused
  have hrest : ∀ cs', cs'.filterMap openAnswer = [] →
      (OpenRefused (cs ++ cs') ↔ OpenRefused cs) := by
    intro cs' hans
    rw [openRefused_append, and_iff_right hans, or_iff_right]
    rw [OpenRefused, hans]
    simp
  cases granted with
  | true =>
    obtain ⟨cs', hcs', hans, -⟩ := forEach_enable_calls es os1
    simp only [profEvlistStart, hq, ↓reduceIte, profEvlistEnable]
    rw [(hcs.trans hcs').callsSince, hrest cs' hans, hrefused]
    simp
  | false =>
    obtain ⟨cs', hcs', hans, -⟩ := forEach_close_calls es os1
    simp only [profEvlistStart, hq, Bool.false_eq_true, ↓reduceIte, closeIfOpen_eq]
    rw [(hcs.trans hcs').callsSince, hrest cs' hans, hrefused]
    simp

/-- A start that returns 0 leaves every event open, enabled and mapped; one that returns -1 leaves
none open or enabled, and no descriptor and no page. -/
structure AllOrNothing (s : ProfEvlist × Os) : Prop where
  returns : (profEvlistStart s.1 s.2).1 = 0 ∨ (profEvlistStart s.1 s.2).1 = -1
  all : (profEvlistStart s.1 s.2).1 = 0 → ∀ e ∈ (profEvlistStart s.1 s.2).2.1.entries, Started e
  nothing : (profEvlistStart s.1 s.2).1 = -1 →
    (∀ e ∈ (profEvlistStart s.1 s.2).2.1.entries, e.isOpen = false ∧ e.isEnable = false) ∧
      openFds (profEvlistStart s.1 s.2).2.2.trace = 0 ∧
      mappedPages (profEvlistStart s.1 s.2).2.2.trace = 0

/-- If an open is refused, `is_enable` was set for no event; if not, it was set only for events
with a page, and no `mmap` is refused. -/
structure StartsClean (s : ProfEvlist × Os) : Prop where
  refused : OpenRefused (callsSince s.2 (profEvlistStart s.1 s.2).2.2) →
    ∀ e ∈ s.1.entries, e.isEnable = false
  granted : ¬ OpenRefused (callsSince s.2 (profEvlistStart s.1 s.2).2.2) →
    (∀ e ∈ s.1.entries, NotStale e) ∧
      ¬ MapRefused (callsSince s.2 (profEvlistStart s.1 s.2).2.2)

/-- A property of `is_enable` and the page survives the first loop. -/
theorem forall_iff_of_sameEnable {P : ProfEvsel → Prop}
    (hP : ∀ e e' : ProfEvsel, e'.isEnable = e.isEnable ∧ e'.mmPage = e.mmPage → (P e' ↔ P e)) :
    ∀ {es es' : List ProfEvsel},
      List.Forall₂ (fun e e' => e'.isEnable = e.isEnable ∧ e'.mmPage = e.mmPage) es es' →
        ((∀ e ∈ es', P e) ↔ ∀ e ∈ es, P e)
  | _, _, .nil => Iff.rfl
  | _, _, .cons h hs => by
    simp only [List.forall_mem_cons, hP _ _ h, forall_iff_of_sameEnable hP hs]

section

variable {k : LawfulKernel} {evlist : ProfEvlist} {es : List ProfEvsel} {os os1 : Os}

/-- Every event was opened: the events are started as far as their pages allow. -/
theorem allOrNothing_iff_of_granted (h : ListOk k 0 0 evlist.entries os)
    (hq : openEach evlist.pid evlist.entries os = (true, es, os1)) :
    AllOrNothing (evlist, os) ↔ StartsClean (evlist, os) := by
  obtain ⟨cs, hcs, hmap, -, hsame, hopen⟩ := openEach_calls evlist.pid evlist.entries os
  have hlist := ListOk.openEach evlist.pid h
  simp only [hq] at hcs hsame hopen hlist
  have hready : ∀ e ∈ es, e.isOpen = true ∧ 0 ≤ e.fd := fun e he =>
    ⟨hopen trivial e he, (hlist.owned e he).opened (hopen trivial e he)⟩
  obtain ⟨cs', hcs', -, hiff⟩ := forEach_enable_calls es os1
  have hstarted := hiff hready
  have hstart : profEvlistStart evlist os =
      (0, profEvlistEnable { evlist with entries := es } os1) := by
    simp only [profEvlistStart, hq, ↓reduceIte]
  have hgranted : ¬ OpenRefused (callsSince os (profEvlistStart evlist os).2.2) := by
    rw [← profEvlistStart_neg_iff, hstart]
    exact lt_irrefl 0
  have hcalls : callsSince os (profEvlistStart evlist os).2.2 = cs ++ cs' := by
    rw [hstart]
    exact (hcs.trans hcs').callsSince
  have hstale : (∀ e ∈ es, NotStale e) ↔ ∀ e ∈ evlist.entries, NotStale e :=
    forall_iff_of_sameEnable (fun e e' he => by rw [NotStale, NotStale, he.1, he.2]) hsame
  rw [hstale] at hstarted
  constructor
  · intro hall
    have hev := hall.all (by rw [hstart])
    rw [hstart] at hev
    have hs := hstarted.1 hev
    refine ⟨fun hr => absurd hr hgranted, fun _ => ⟨hs.1, ?_⟩⟩
    rw [hcalls, mapRefused_append]
    exact not_or.2 ⟨hmap, hs.2⟩
  · intro hclean
    obtain ⟨hn, hm⟩ := hclean.granted hgranted
    rw [hcalls, mapRefused_append, not_or] at hm
    have hs := hstarted.2 ⟨hn, hm.2⟩
    refine ⟨.inl (by rw [hstart]), fun _ => by rw [hstart]; exact hs, fun hneg => ?_⟩
    rw [hstart] at hneg
    cases hneg

/-- An open was refused: everything is closed again, but `is_enable` stays as it was. -/
theorem allOrNothing_iff_of_refused (h : ListOk k 0 0 evlist.entries os)
    (hq : openEach evlist.pid evlist.entries os = (false, es, os1)) :
    AllOrNothing (evlist, os) ↔ StartsClean (evlist, os) := by
  obtain ⟨-, -, -, -, hsame, -⟩ := openEach_calls evlist.pid evlist.entries os
  have hlist := ListOk.openEach evlist.pid h
  simp only [hq] at hsame hlist
  obtain ⟨-, -, -, hbits⟩ := forEach_close_calls es os1
  have hstart : profEvlistStart evlist os =
      (-1, { evlist with entries := (forEach profEvselClose es os1).1 },
        (forEach profEvselClose es os1).2) := by
    simp only [profEvlistStart, hq, Bool.false_eq_true, ↓reduceIte, closeIfOpen_eq]
  have hrefused : OpenRefused (callsSince os (profEvlistStart evlist os).2.2) := by
    rw [← profEvlistStart_neg_iff, hstart]
    exact Int.negSucc_lt_zero 0
  have hbits' : (∀ e ∈ es, e.isEnable = false) ↔ ∀ e ∈ evlist.entries, e.isEnable = false :=
    forall_iff_of_sameEnable (fun e e' he => by rw [he.1]) hsame
  rw [hbits'] at hbits
  have hclosed : ∀ e ∈ (forEach profEvselClose es os1).1, e.isOpen = false ∧ e.mmPage = none :=
    forEach_close_owns hlist.owned
  obtain ⟨hfds, hpages⟩ := ownsAll_zero hclosed
  have hacc := (hlist.forEach keeps_close).accounts
  rw [hfds, hpages, add_zero, add_zero] at hacc
  constructor
  · intro hall
    have hn := (hall.nothing (by rw [hstart])).1
    rw [hstart] at hn
    exact ⟨fun _ => hbits.1 fun e he => (hn e he).2, fun hr => absurd hrefused hr⟩
  · intro hclean
    have hn := hbits.2 (hclean.refused hrefused)
    refine ⟨.inr (by rw [hstart]), fun h0 => ?_, fun _ => ?_⟩
    · rw [hstart] at h0
      cases h0
    · rw [hstart]
      exact ⟨fun e he => ⟨(hclosed e he).1, hn e he⟩, hacc.fds, hacc.pages⟩

end

theorem allOrNothing_iff {k : LawfulKernel} {s : ProfEvlist × Os}
    (h : ListOk k 0 0 s.1.entries s.2) : AllOrNothing s ↔ StartsClean s := by
  rcases hq : openEach s.1.pid s.1.entries s.2 with ⟨granted, es, os1⟩
  cases granted with
  | true => exact allOrNothing_iff_of_granted h hq
  | false => exact allOrNothing_iff_of_refused h hq

/-- **Starting a list is all or nothing exactly where it starts clean**, for every list that any
calls have left and any answers of the system. -/
theorem start_all_or_nothing_iff (k : LawfulKernel) (pid : Int) (ops : List EvlistOp) :
    AllOrNothing (evlistRun (profEvlistNew pid, Os.boot k.toKernel) ops) ↔
      StartsClean (evlistRun (profEvlistNew pid, Os.boot k.toKernel) ops) := by
  have h0 : ListOk k 0 0 (profEvlistNew pid).entries (Os.boot k.toKernel) :=
    ⟨fun e he => (by cases he), accounts_boot k⟩
  exact allOrNothing_iff (listOk_run (s := (profEvlistNew pid, Os.boot k.toKernel)) h0 ops)

/-- Descriptors are granted, pages are not. -/
def LawfulKernel.noPages : LawfulKernel :=
  { LawfulKernel.granting with mmap := fun _ => none, mmap_fresh := fun _ _ h => (nomatch h) }

/-- A list of one event, just added. -/
def oneEventSt : ProfEvlist × Os :=
  evlistRun (profEvlistNew 100, Os.boot LawfulKernel.noPages.toKernel)
    [.addFromStr (some "cpu-cycles".toList)]

/-- The start returns 0, and its only event is open but neither enabled nor mapped. -/
theorem unmapped_start_succeeds :
    (profEvlistStart oneEventSt.1 oneEventSt.2).1 = 0 ∧
      (profEvlistStart oneEventSt.1 oneEventSt.2).2.1.entries.map
        (fun e => (e.isOpen, e.isEnable, e.mmPage)) = [(true, false, none)] ∧
      ¬ AllOrNothing oneEventSt := by
  have hentries : (profEvlistStart oneEventSt.1 oneEventSt.2).2.1.entries.map
      (fun e => (e.isOpen, e.isEnable, e.mmPage)) = [(true, false, none)] := rfl
  refine ⟨rfl, hentries, fun h => ?_⟩
  have hstarted := h.all rfl
  rcases he : (profEvlistStart oneEventSt.1 oneEventSt.2).2.1.entries with _ | ⟨e, es⟩
  · rw [he] at hentries
    cases hentries
  · rw [he, List.map_cons, List.cons.injEq, Prod.mk.injEq, Prod.mk.injEq] at hentries
    rw [he] at hstarted
    have hn := (hstarted e List.mem_cons_self).isEnable
    rw [hentries.1.2.1] at hn
    cases hn

end Lprofile.Probe
