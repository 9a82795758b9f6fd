import Lprofile.Probe.Threads

/-!
# Creation order

The child of `lprobe_pthread_create` runs before its creator has registered it.
A probe that finds no slot sets the thread-local `is_ignore`, and nothing clears
it again. So the records of a registered thread reach its slot exactly when its
first probe came after the registration, and no earlier slot holds its tid
(`appends_iff`).
-/

namespace Lprofile.Probe

open Lprofile.Lib

/-- `a` is a probe call of the registered thread `t`, whose slot `i` is running with the event
list `l`. -/
structure ProbesIn (s : ThreadSt) (a : ThreadStep) (call : ProbeCall) (samples : Nat → PmcSample)
    (t : Thread) (i : Fin profThreadMax) (l : ProfEvlist) : Prop where
  thread : ∃ c, a = .probe c call samples ∧ s.threads c = some t
  registered : t.registered = true
  slot : t.slot = some i
  running : (s.proc.slot i).state = .running
  evlist : (s.proc.slot i).evlist = some l

/-- The call appends its records to the slot of the thread. -/
def Appends (s : ThreadSt) (a : ThreadStep) : Prop :=
  ∀ call samples t i l, ProbesIn s a call samples t i l →
    ∀ s', threadMachine.step s a = .ok s' →
      (s'.proc.slot i).stream =
        (s.proc.slot i).stream ++ recordBytes (callRecords call samples l.entries)

/-- The thread made no call before its registration, and its slot is the first with its tid. -/
def OnTime (s : ThreadSt) (a : ThreadStep) : Prop :=
  ∀ call samples t i l, ProbesIn s a call samples t i l → l.entries ≠ [] →
    t.early = false ∧ ∀ j < i, (s.proc.slot j).tid ≠ t.tid

/-- A call that reads an event leaves bytes behind. -/
theorem recordBytes_callRecords_ne_nil {call : ProbeCall} {samples : Nat → PmcSample}
    {es : List ProfEvsel} (h : es ≠ []) : recordBytes (callRecords call samples es) ≠ [] := by
  cases es with
  | nil => exact absurd rfl h
  | cons e es =>
    intro hnil
    have hlen := congrArg List.length hnil
    simp [callRecords, List.mapIdx_cons, recordBytes, length_bytes] at hlen

/-- The slot the thread's probe records in, if it is running. -/
theorem enterProbe_slot {g : Proc} {t : Thread} (h : ThreadOk g t) (hlive : t.live = true)
    {i : Fin profThreadMax} (hslot : t.slot = some i) (hrun : (g.slot i).state = .running) :
    (enterProbe t.tid t.tls g.info).2 = some i ↔
      t.early = false ∧ ∀ j < i, (g.slot j).tid ≠ t.tid := by
  have htid := (h.placed i hslot).2 hlive
  have hfirst : (∀ j < i, (g.slot j).tid ≠ t.tid) ↔ findTinfo g.info t.tid = some i := by
    rw [findTinfo_eq_some]
    exact ⟨fun hmin => ⟨htid, hmin⟩, fun hf => hf.2⟩
  rw [hfirst]
  rcases enterProbe_cases t.tid t.tls g.info with
    ⟨hig, he⟩ | ⟨-, -, hf, he⟩ | ⟨j, tls', hig, -, -, hfrom, he⟩
  · rw [he]
    refine iff_of_false (by simp) fun hc => ?_
    rw [(h.onTime hc.1 hig).2] at hslot
    cases hslot
  · exact absurd htid (findTinfo_eq_none.1 hf i)
  · have hf : findTinfo g.info t.tid = some j := by
      rcases hfrom with hti | ⟨-, hf⟩
      · exact h.bound j hti
      · exact hf
    rw [he, hf]
    constructor
    · intro hj
      have hji : j = i := by
        split at hj
        · exact Option.some.inj hj
        · cases hj
      subst hji
      refine ⟨?_, rfl⟩
      by_contra hearly
      rcases h.late (by simpa using hearly) with hig' | ⟨k, hk, hne⟩
      · rw [hig] at hig'
        cases hig'
      · rw [hslot] at hne
        have : findTinfo g.info t.tid = some k := h.bound k hk
        exact hne (hf.symm.trans this)
    · rintro ⟨-, hji⟩
      cases hji
      simp only [Proc.slot] at hrun
      simp only [hrun, ↓reduceIte]

/-- **One probe.** -/
theorem appends_iff_onTime {s : ThreadSt} {a : ThreadStep} (h : ThreadsOk s)
    (hen : threadMachine.Enabled s a) : Appends s a ↔ OnTime s a := by
  have key : ∀ call samples t i l, ProbesIn s a call samples t i l →
      ((∀ s', threadMachine.step s a = .ok s' → (s'.proc.slot i).stream =
        (s.proc.slot i).stream ++ recordBytes (callRecords call samples l.entries)) ↔
      (l.entries ≠ [] → t.early = false ∧ ∀ j < i, (s.proc.slot j).tid ≠ t.tid)) := by
    rintro call samples t i l ⟨⟨c, rfl, ht⟩, -, hslot, hrun, hl⟩
    obtain ⟨t', ht', hlive⟩ := hen
    rw [ht] at ht'
    cases ht'
    have hslot_iff := enterProbe_slot (h.thread c t ht) hlive hslot hrun
    obtain ⟨g', hg, hcase⟩ := lprobeFunc_spec h.table call samples t.tid t.tls
    rw [← hslot_iff]
    simp only [step_probe ht hg, Except.ok.injEq, forall_eq', ThreadSt.set]
    by_cases he : (enterProbe t.tid t.tls s.proc.info).2 = some i
    · rw [he] at hcase
      obtain ⟨l', hl', e⟩ := hcase
      rw [hl] at hl'
      cases hl'
      obtain ⟨_, _, _, _, _, hrec⟩ := e.slot
      exact iff_of_true hrec.stream fun _ => he
    · have hsame : g'.slot i = s.proc.slot i := by
        split at hcase
        · rw [hcase]
        · rename_i j hj
          obtain ⟨l', -, e⟩ := hcase
          exact e.slot_ne i fun hij => he (by rw [hj, hij])
      rw [hsame, List.self_eq_append_right]
      simp only [he, imp_false, not_not]
      constructor
      · intro hnil
        by_contra hne
        exact recordBytes_callRecords_ne_nil hne hnil
      · intro hnil
        rw [hnil]
        rfl
  constructor
  · intro hA call samples t i l hp
    exact (key call samples t i l hp).1 (hA call samples t i l hp)
  · intro hO call samples t i l hp
    exact (key call samples t i l hp).2 (hO call samples t i l hp)

/-- **Records and creation order.** Along every interleaving of creations, registrations, probes
and exits after a successful `lprobe_init`, the calls of registered threads reach their slots
exactly when every such call is `OnTime`. -/
theorem appends_iff (evlistStr : CStr) (minId maxId freq : Nat) (pid : Int) (mutexOk : Bool)
    (namelist : Option (List CStr)) (os : Os) (tls : Tls) (g : Proc) (hpid : ValidTid pid)
    (hinit : lprobeInit evlistStr minId maxId freq pid mutexOk namelist .initial
      (Proc.initial os) = .ok (0, tls, g))
    (acts : List ThreadStep) (hl : threadMachine.Legal (.start pid tls g) acts) :
    (∃ s, threadMachine.run (.start pid tls g) acts = .ok s) ∧
    (threadMachine.AtEach (.start pid tls g) acts Appends ↔
      threadMachine.AtEach (.start pid tls g) acts OnTime) := by
  have h0 := ThreadsOk.start hpid (lprobeInit_ok hpid hinit)
  obtain ⟨s, hs, -⟩ := threads_run h0 hl
  refine ⟨⟨s, hs⟩, Machine.atEach_congr fun pre a post t e ht => ?_⟩
  subst e
  obtain ⟨t', ht', hok⟩ := threads_run h0 hl.append.1
  rw [ht] at ht'
  cases ht'
  exact appends_iff_onTime hok (hl.enabled ht)

/-! ## A child that is faster than its creator -/

/-- A page that does not allow `rdpmc`. -/
def closedPage : PmcSample :=
  ⟨[⟨⟨0, 0, 0, false, false, 0, 0, 0, 0, 0, 0⟩, 0, 0, 0⟩], rfl⟩

def someCall : ProbeCall := ⟨7, false, 1000⟩

def childStart : ThreadSt := .start 100 ⟨some 0, false, 100⟩ soloProc

theorem legal_create : threadMachine.Enabled childStart (.create 1 200) := by
  refine ⟨rfl, ⟨by decide, by decide⟩, fun d t ht _ => ?_⟩
  simp only [childStart, ThreadSt.start] at ht
  split at ht
  · cases ht
    decide
  · cases ht

theorem appends_iff_punctual :
    (∃ s, threadMachine.run childStart
      [.create 1 200, .register 1, .probe 1 someCall fun _ => closedPage] = .ok s) ∧
    (threadMachine.AtEach childStart
      [.create 1 200, .register 1, .probe 1 someCall fun _ => closedPage] Appends ↔
    threadMachine.AtEach childStart
      [.create 1 200, .register 1, .probe 1 someCall fun _ => closedPage] OnTime) := by
  refine appends_iff _ _ _ _ _ _ _ _ _ _ ⟨by decide, by decide⟩ soloInit_eq _
    ⟨legal_create, fun s hs => ?_⟩
  cases hs
  refine ⟨⟨_, rfl, rfl⟩, fun s hs => ?_⟩
  cases hs
  exact ⟨⟨_, rfl, rfl⟩, fun _ _ => trivial⟩

/-- Thread 200 makes its first call before it is registered: its later call leaves nothing in
its slot. -/
theorem early_probe_loses :
    threadMachine.Legal childStart [.create 1 200, .probe 1 someCall fun _ => closedPage,
      .register 1, .probe 1 someCall fun _ => closedPage] ∧
    ¬ threadMachine.AtEach childStart [.create 1 200, .probe 1 someCall fun _ => closedPage,
      .register 1, .probe 1 someCall fun _ => closedPage] Appends := by
  refine ⟨⟨legal_create, fun s hs => ?_⟩, fun h => ?_⟩
  · cases hs
    refine ⟨⟨_, rfl, rfl⟩, fun s hs => ?_⟩
    cases hs
    refine ⟨⟨_, rfl, rfl⟩, fun s hs => ?_⟩
    cases hs
    exact ⟨⟨_, rfl, rfl⟩, fun _ _ => trivial⟩
  · have hlast := h [.create 1 200, .probe 1 someCall fun _ => closedPage, .register 1] _ [] _ rfl
      rfl someCall (fun _ => closedPage) _ 1 _ ⟨⟨1, rfl, rfl⟩, rfl, rfl, rfl, rfl⟩ _ rfl
    revert hlast
    decide

end Lprofile.Probe
