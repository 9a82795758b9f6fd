import Lprofile.Lib.Machine
import Lprofile.Probe.Opening

/-!
# Runs of one event selector

`evselMachine` takes any sequence of `open`, `enable`, `disable` and `close` on
one selector; `open` is enabled only while `is_open` is clear, as
`prof_evlist__start` guarantees.

`Coupled` is the intended coupling of the four fields. `prof_evsel__disable`
ends with `is_enable = 1`, so disabling or closing an enabled event leaves
`is_enable` set without a page: `Coupled` holds along a run exactly when no
such step is taken (`coupled_run_iff`).
-/

namespace Lprofile.Probe

open Lprofile.Lib

inductive EvselOp where
  | open (pid : Int)
  | enable
  | disable
  | close
  deriving DecidableEq

abbrev EvselSt := ProfEvsel × Os

def EvselOp.apply (s : EvselSt) : EvselOp → EvselSt
  | .open pid => (profEvselOpen s.1 pid s.2).2
  | .enable => (profEvselEnable s.1 s.2).2
  | .disable => profEvselDisable s.1 s.2
  | .close => profEvselClose s.1 s.2

/-- The operations that take the page away. -/
def EvselOp.stops : EvselOp → Bool
  | .disable | .close => true
  | _ => false

def evselMachine : Machine EvselSt EvselOp Fault where
  Enabled s op := ∀ pid, op = .open pid → s.1.isOpen = false
  step s op := .ok (op.apply s)

/-- `is_enable` goes with an open descriptor and a mapped page, a mapped page with `is_enable`. -/
structure Coupled (e : ProfEvsel) : Prop where
  enabled : e.isEnable = true → e.isOpen = true ∧ 0 ≤ e.fd ∧ e.mmPage ≠ none
  mapped : e.mmPage ≠ none → e.isEnable = true

/-- An `enable` here issues `PERF_EVENT_IOC_ENABLE` and then maps the page. -/
def Remaps (s : EvselSt) : Prop :=
  ∃ page rest, (profEvselEnable s.1 s.2).2.2.trace =
    s.2.trace ++ .ioctl s.1.fd .enable :: .mmap s.1.fd page :: rest

/-- The selector made by `prof_evsel__new` and `prof_evsel__init`. -/
def freshEvsel (name : CStr) (attr : PerfEventAttr) (idx : Nat) : ProfEvsel :=
  profEvselInit (profEvselNew name) attr idx

/-! ## What each operation can do -/

/-- A failed or successful open changes only `fd` and `is_open`. -/
theorem retryOpen_evsel (pid : Int) (left : Nat) (e : ProfEvsel) (os : Os) :
    (∃ fd : Nat, (retryOpen pid left e os).1 = 0 ∧
      (retryOpen pid left e os).2.1 = { e with fd := fd, isOpen := true }) ∨
    ((retryOpen pid left e os).1 < 0 ∧
      (retryOpen pid left e os).2.1 = { e with fd := -1, isOpen := false }) := by
  obtain ⟨os', res, -, heq⟩ := retryOpen_run pid left e os
  rw [heq]
  cases res with
  | ok fd => exact .inl ⟨fd, rfl, rfl⟩
  | error err => exact .inr ⟨openReturn_error_neg err, rfl⟩

theorem profEvselOpen_evsel (e : ProfEvsel) (pid : Int) (os : Os) :
    (∃ fd : Nat, (profEvselOpen e pid os).2.1 = { e with fd := fd, isOpen := true }) ∨
    (profEvselOpen e pid os).2.1 = { e with fd := -1, isOpen := false } := by
  rcases retryOpen_evsel pid 2 e os with ⟨fd, -, h⟩ | ⟨-, h⟩
  · exact .inl ⟨fd, h⟩
  · exact .inr h

theorem unmapPage_evsel (e : ProfEvsel) (os : Os) :
    (unmapPage e os).1 = { e with mmPage := none } := by
  unfold unmapPage
  split
  · rfl
  · rename_i h
    rw [← h]

theorem profEvselEnable_evsel (e : ProfEvsel) (os : Os) :
    (profEvselEnable e os).2.1 = e ∨
    (e.isOpen = true ∧ e.isEnable = false ∧ 0 ≤ e.fd ∧
      ((∃ p, (profEvselEnable e os).2.1 = { e with mmPage := some p, isEnable := true }) ∨
        (profEvselEnable e os).2.1 = { e with mmPage := none })) := by
  by_cases ho : e.isOpen = true
  · by_cases hn : e.isEnable = true
    · exact .inl (by simp [profEvselEnable, ho, hn])
    · by_cases hf : e.fd < 0
      · exact .inl (by simp [profEvselEnable, ho, hn, hf])
      · refine .inr ⟨ho, by simpa using hn, by omega, ?_⟩
        simp only [profEvselEnable, ho, hn, hf, Bool.not_true, Bool.false_eq_true, ↓reduceIte]
        split
        · rename_i p _ _
          exact .inl ⟨p, rfl⟩
        · exact .inr (unmapPage_evsel _ _)
  · exact .inl (by simp [profEvselEnable, ho])

theorem profEvselDisable_evsel (e : ProfEvsel) (os : Os) :
    (profEvselDisable e os).1 =
      if e.isEnable = true ∧ 0 ≤ e.fd then { e with mmPage := none } else e := by
  unfold profEvselDisable
  cases hn : e.isEnable with
  | false => simp
  | true =>
    by_cases hf : e.fd < 0
    · have : ¬ 0 ≤ e.fd := by omega
      simp [hf, this]
    · have : 0 ≤ e.fd := by omega
      simp only [Bool.not_true, Bool.false_eq_true, ↓reduceIte, hf, true_and, this,
        unmapPage_evsel]

theorem profEvselClose_evsel (e : ProfEvsel) (os : Os) :
    (profEvselClose e os).1 =
      if e.isOpen = true ∧ 0 ≤ e.fd then
        { e with fd := -1, isOpen := false, mmPage := if e.isEnable then none else e.mmPage }
      else e := by
  unfold profEvselClose
  cases ho : e.isOpen with
  | false => simp
  | true =>
    by_cases hf : 0 ≤ e.fd
    · have hf' : ¬ e.fd < 0 := by omega
      cases hn : e.isEnable with
      | false => simp [hn, hf, hf']
      | true => simp [profEvselDisable_evsel, hn, hf, hf']
    · have hf' : e.fd < 0 := by omega
      cases hn : e.isEnable with
      | false => simp [hf, hf']
      | true => simp [profEvselDisable_evsel, hn, hf, hf']

theorem profEvselEnable_remaps {e : ProfEvsel} {os : Os} (ho : e.isOpen = true)
    (hn : e.isEnable = false) (hf : 0 ≤ e.fd) : Remaps (e, os) := by
  have hf' : ¬ e.fd < 0 := by omega
  unfold Remaps
  simp only [profEvselEnable, ho, hn, hf', Bool.not_true, Bool.false_eq_true, ↓reduceIte]
  cases hm : os.kernel.mmap (os.ioctl e.fd .enable).trace with
  | some p => exact ⟨some p, [], by simp [Os.mmap, Os.ioctl] at hm ⊢; simp [hm]⟩
  | none =>
    refine ⟨none, [.ioctl e.fd .disable], ?_⟩
    simp [Os.mmap, Os.ioctl, unmapPage] at hm ⊢
    simp [hm]

/-! ## One step -/

/-- `Coupled`, and what `fd` is while the event is open. -/
structure Sound (e : ProfEvsel) : Prop extends Coupled e where
  opened : e.isOpen = true → 0 ≤ e.fd

theorem sound_freshEvsel (name : CStr) (attr : PerfEventAttr) (idx : Nat) :
    Sound (freshEvsel name attr idx) where
  enabled h := by simp [freshEvsel, profEvselInit, profEvselNew] at h
  mapped h := by simp [freshEvsel, profEvselInit, profEvselNew] at h
  opened h := by simp [freshEvsel, profEvselInit, profEvselNew] at h

theorem Coupled.not_open {e : ProfEvsel} (h : Coupled e) (ho : e.isOpen = false) :
    e.isEnable = false ∧ e.mmPage = none := by
  have hn : e.isEnable = false := by
    cases hn : e.isEnable with
    | false => rfl
    | true => rw [(h.enabled hn).1] at ho; cases ho
  refine ⟨hn, ?_⟩
  by_contra hp
  rw [h.mapped hp] at hn
  cases hn

theorem Coupled.rdpmc {e : ProfEvsel} (h : Coupled e) (s : PmcSample) :
    profEvselRdpmc e s ≠ .error .nullPage := by
  unfold profEvselRdpmc
  split
  · simp
  · rename_i hn
    split
    · rename_i hp
      exact absurd hp (h.enabled (by simpa using hn)).2.2
    · simp

theorem Sound.apply {s : EvselSt} {op : EvselOp} (h : Sound s.1)
    (hen : evselMachine.Enabled s op) (hstop : op.stops = true → s.1.isEnable = false) :
    Sound (op.apply s).1 := by
  obtain ⟨e, os⟩ := s
  cases op with
  | «open» pid =>
    obtain ⟨hn, hp⟩ := h.not_open (hen pid rfl)
    simp only at hn hp
    rcases profEvselOpen_evsel e pid os with ⟨fd, he⟩ | he
    · simp only [EvselOp.apply, he]
      exact ⟨⟨by simp [hn], by simp [hp]⟩, by simp⟩
    · simp only [EvselOp.apply, he]
      exact ⟨⟨by simp [hn], by simp [hp]⟩, by simp⟩
  | enable =>
    rcases profEvselEnable_evsel e os with he | ⟨ho, hn, hf, ⟨p, he⟩ | he⟩
    · simp only [EvselOp.apply, he]
      exact h
    · simp only [EvselOp.apply, he]
      exact ⟨⟨by simp [ho, hf], by simp⟩, by simp [hf]⟩
    · simp only [EvselOp.apply, he]
      exact ⟨⟨by simp [hn], by simp⟩, by simp [hf]⟩
  | disable =>
    have hn : e.isEnable = false := hstop rfl
    simp only [EvselOp.apply, profEvselDisable_evsel, hn, Bool.false_eq_true, false_and, ↓reduceIte]
    exact h
  | close =>
    have hn : e.isEnable = false := hstop rfl
    have hp : e.mmPage = none := by
      by_contra hp
      rw [h.mapped hp] at hn
      cases hn
    simp only [EvselOp.apply, profEvselClose_evsel, hn, Bool.false_eq_true, ↓reduceIte]
    split
    · exact ⟨⟨by simp, by simp [hp]⟩, by simp⟩
    · exact h

/-- Stopping an enabled event breaks the coupling. -/
theorem Coupled.stop_enabled {s : EvselSt} {op : EvselOp} (h : Coupled s.1)
    (hop : op.stops = true) (hn : s.1.isEnable = true) : ¬ Coupled (op.apply s).1 := by
  obtain ⟨e, os⟩ := s
  obtain ⟨ho, hf, -⟩ := h.enabled hn
  simp only at ho hf hn
  intro hc
  cases op with
  | «open» pid => cases hop
  | enable => cases hop
  | disable =>
    simp only [EvselOp.apply, profEvselDisable_evsel, hn, hf, and_self, ↓reduceIte] at hc
    exact (hc.enabled rfl).2.2 rfl
  | close =>
    simp only [EvselOp.apply, profEvselClose_evsel, ho, hn, hf, and_self, ↓reduceIte] at hc
    exact (hc.enabled rfl).2.2 rfl

/-- Only `enable` sets `is_enable`, as long as no enabled event is stopped. -/
theorem isEnable_apply {s : EvselSt} {op : EvselOp} (hn : s.1.isEnable = false)
    (hop : op ≠ .enable) : (op.apply s).1.isEnable = false := by
  obtain ⟨e, os⟩ := s
  simp only at hn
  cases op with
  | «open» pid =>
    rcases profEvselOpen_evsel e pid os with ⟨fd, he⟩ | he <;> simp [EvselOp.apply, he, hn]
  | enable => exact absurd rfl hop
  | disable => simp [EvselOp.apply, profEvselDisable_evsel, hn]
  | close =>
    simp only [EvselOp.apply, profEvselClose_evsel]
    split <;> simp [hn]

theorem isEnable_run {ops : List EvselOp} (hops : .enable ∉ ops) :
    ∀ {s t : EvselSt}, s.1.isEnable = false → evselMachine.run s ops = .ok t →
      t.1.isEnable = false := by
  induction ops with
  | nil => intro s t hn hr; cases hr; exact hn
  | cons op ops ih =>
    intro s t hn hr
    simp only [List.mem_cons, not_or] at hops
    obtain ⟨u, hu, hr⟩ := Machine.run_cons_eq_ok.1 hr
    cases hu
    exact ih hops.2 (isEnable_apply hn (fun e => hops.1 e.symm)) hr

/-! ## Whole runs -/

/-- What is expected of a run from `s`: the fields stay coupled and reading never goes through
a NULL page, and an `enable` after the event was stopped enables and maps it again. -/
structure RunOk (s : EvselSt) (ops : List EvselOp) : Prop where
  coupled : evselMachine.Always s ops fun t =>
    Coupled t.1 ∧ ∀ sample, profEvselRdpmc t.1 sample ≠ .error .nullPage
  remaps : ∀ pre op mid post t, ops = pre ++ op :: (mid ++ .enable :: post) → op.stops = true →
    .enable ∉ mid → evselMachine.run s (pre ++ op :: mid) = .ok t → t.1.isOpen = true → Remaps t

/-- No enabled event is disabled or closed. -/
def NeverStopped (s : EvselSt) (ops : List EvselOp) : Prop :=
  evselMachine.AtEach s ops fun t op => op.stops = true → t.1.isEnable = false

theorem sound_run {s : EvselSt} {ops : List EvselOp} (hs : Sound s.1)
    (hl : evselMachine.Legal s ops) (h : NeverStopped s ops) :
    evselMachine.Always s ops fun t => Sound t.1 := by
  refine Machine.always_of_step hs fun pre op post t t' e ht hP hstep => ?_
  cases hstep
  subst e
  exact hP.apply (hl.enabled ht) (h pre op post t rfl ht)

theorem runOk_of_neverStopped {s : EvselSt} {ops : List EvselOp} (hs : Sound s.1)
    (hl : evselMachine.Legal s ops) (h : NeverStopped s ops) : RunOk s ops where
  coupled pre t hp ht :=
    have hc := (sound_run hs hl h pre t hp ht).toCoupled
    ⟨hc, hc.rdpmc⟩
  remaps pre op mid post t e hop hmid ht ho := by
    obtain ⟨u, hu, hr⟩ := Machine.run_append_eq_ok.1 ht
    obtain ⟨v, hv, hr⟩ := Machine.run_cons_eq_ok.1 hr
    cases hv
    have hne : op ≠ .enable := by rintro rfl; cases hop
    have hn : t.1.isEnable = false :=
      isEnable_run hmid (isEnable_apply (h pre op _ u e hu hop) hne) hr
    have hS : Sound t.1 :=
      sound_run hs hl h (pre ++ op :: mid) t ⟨.enable :: post, by simp [e]⟩ ht
    exact profEvselEnable_remaps ho hn (hS.opened ho)

/-- **The selector's fields stay coupled exactly in the runs that never disable or close an
enabled event.** -/
theorem coupled_run_iff (name : CStr) (attr : PerfEventAttr) (idx : Nat) (os : Os)
    (ops : List EvselOp) (hl : evselMachine.Legal (freshEvsel name attr idx, os) ops) :
    RunOk (freshEvsel name attr idx, os) ops ↔ NeverStopped (freshEvsel name attr idx, os) ops := by
  constructor
  · intro h pre op post t e ht hop
    by_contra hn
    have hn : t.1.isEnable = true := by simpa using hn
    have hc := (h.coupled pre t ⟨op :: post, by simp [e]⟩ ht).1
    refine hc.stop_enabled hop hn ?_
    exact (h.coupled (pre ++ [op]) (op.apply t) ⟨post, by simp [e]⟩
      (Machine.run_snoc_eq_ok.2 ⟨t, ht, rfl⟩)).1
  · exact runOk_of_neverStopped (sound_freshEvsel name attr idx) hl

/-- A selector of the first event, on a system that grants everything. -/
def cyclesSt : EvselSt := (freshEvsel "cpu-cycles".toList .zero 0, Os.boot .granting)

theorem coupled_run_iff_cycles :
    RunOk cyclesSt [.open 1, .enable] ↔ NeverStopped cyclesSt [.open 1, .enable] :=
  coupled_run_iff _ _ _ _ _
    ⟨fun _ _ => rfl, fun _ _ => ⟨fun _ h => (by cases h), fun _ _ => trivial⟩⟩

/-- Open, enable, disable: `is_enable` is still set, and the page is gone. -/
theorem disable_uncouples :
    evselMachine.Legal cyclesSt [.open 1, .enable, .disable] ∧
      ¬ RunOk cyclesSt [.open 1, .enable, .disable] := by
  refine ⟨⟨fun _ _ => rfl, fun _ _ => ⟨fun _ h => (by cases h), fun _ _ =>
    ⟨fun _ h => (by cases h), fun _ _ => trivial⟩⟩⟩, fun h => ?_⟩
  have hc := (h.coupled [.open 1, .enable, .disable] _ (List.prefix_refl _) rfl).1
  exact (hc.enabled rfl).2.2 rfl

end Lprofile.Probe
