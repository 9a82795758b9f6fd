import Lprofile.Probe.Slots

/-!
# Concurrent registration

`lprobe_thread_init` tests `thread_nid` before it takes `thread_lock`, so a call
is two atomic steps: `check`, which returns when the table is full, and `body`,
the critical section. `regMachine` interleaves the steps of any number of calls.

Between a call's check and its body the last slot can be taken by another call.
The index used in the critical section is good in every body step exactly when
the bodies and the slots taken before do not exceed the table
(`bodies_good_iff`); one more call past the check indexes `threads[UINT_MAX]`.
-/

namespace Lprofile.Probe

open Lprofile.Lib

inductive RegStep where
  /-- call `c`, for the thread `pid`, tests `thread_nid` -/
  | check (c : Nat) (pid : Int)
  /-- call `c` runs its critical section -/
  | body (c : Nat)
  deriving DecidableEq

/-- `passed c` is the thread of call `c` while the call is between its two steps. -/
structure RegSt where
  proc : Proc
  passed : Nat → Option Int

def RegStep.isBody : RegStep → Bool
  | .body _ => true
  | .check _ _ => false

def regMachine : Machine RegSt RegStep Fault where
  Enabled s
    | .check c _ => s.passed c = none
    | .body c => (s.passed c).isSome
  step s
    | .check c pid =>
      if s.proc.info.threadNid = uintMax then .ok s
      else .ok { s with passed := Function.update s.passed c (some pid) }
    | .body c =>
      match s.passed c with
      | none => .ok s
      | some pid =>
        match registerTid pid s.proc with
        | .ok g => .ok ⟨g, Function.update s.passed c none⟩
        | .error f => .error f

/-- In a body, `thread_nid` names a slot of the table that was not registered before. -/
def GoodIndex (s : RegSt) (a : RegStep) : Prop :=
  a.isBody = true →
    ∃ h : s.proc.info.threadNid < profThreadMax, ⟨s.proc.info.threadNid, h⟩ ∉ s.proc.inits

theorem goodIndex_iff {s : RegSt} (h : SlotInv s.proc) (c : Nat) :
    GoodIndex s (.body c) ↔ s.proc.info.threadNb < profThreadMax := by
  constructor
  · intro hg
    obtain ⟨hlt, -⟩ := hg rfl
    refine h.lt_of_nid_ne fun hfull => ?_
    rw [hfull] at hlt
    exact absurd hlt (by decide)
  · intro hlt _
    refine h.slotsOk.next fun e => ?_
    have := h.nid_eq_uintMax_iff.1 e
    omega

/-- A step keeps the table's invariant and counts the bodies. -/
theorem regStep_slotInv {s s' : RegSt} {a : RegStep} (h : SlotInv s.proc)
    (hen : regMachine.Enabled s a) (hs : regMachine.step s a = .ok s') :
    SlotInv s'.proc ∧
      s'.proc.info.threadNb = s.proc.info.threadNb + if a.isBody then 1 else 0 := by
  cases a with
  | check c pid =>
    simp only [regMachine] at hs
    split at hs
    · cases hs; exact ⟨h, rfl⟩
    · cases hs; exact ⟨h, rfl⟩
  | body c =>
    obtain ⟨pid, hpid⟩ := Option.isSome_iff_exists.1 hen
    simp only [regMachine, hpid] at hs
    have hlt : s.proc.info.threadNb < profThreadMax := by
      refine h.lt_of_nid_ne fun hfull => ?_
      have hout : ¬ uintMax < profThreadMax := by decide
      simp [registerTid, slotAt, hfull, hout] at hs
    obtain ⟨g', id, hg', r, hi⟩ := h.registerTid hlt pid
    rw [hg'] at hs
    cases hs
    exact ⟨hi, r.threadNb⟩

/-- From any table that satisfies the invariant. -/
theorem bodies_good_iff_of_slotInv : ∀ {acts : List RegStep} {s : RegSt}, SlotInv s.proc →
    regMachine.Legal s acts →
      (regMachine.AtEach s acts GoodIndex ↔
        s.proc.info.threadNb + acts.countP RegStep.isBody ≤ profThreadMax)
  | [], s, h, _ => by
    have hle := h.nb_le
    simp only [List.countP_nil, Nat.add_zero, hle, iff_true]
    exact Machine.atEach_nil
  | a :: acts, s, h, hl => by
    rw [Machine.atEach_cons, List.countP_cons]
    obtain ⟨hen, hl⟩ := hl
    have ih : ∀ t, regMachine.step s a = .ok t → (regMachine.AtEach t acts GoodIndex ↔
        s.proc.info.threadNb + (acts.countP RegStep.isBody + if a.isBody then 1 else 0) ≤
          profThreadMax) := by
      intro t ht
      obtain ⟨hi, hnb⟩ := regStep_slotInv h hen ht
      rw [bodies_good_iff_of_slotInv hi (hl t ht), hnb]
      constructor <;> intro <;> omega
    cases a with
    | check c pid =>
      obtain ⟨t, ht⟩ : ∃ t, regMachine.step s (.check c pid) = .ok t := by
        by_cases hfull : s.proc.info.threadNid = uintMax
        · exact ⟨s, by simp only [regMachine, hfull, ↓reduceIte]⟩
        · exact ⟨_, by simp only [regMachine, hfull, ↓reduceIte]; rfl⟩
      constructor
      · rintro ⟨-, hk⟩
        exact (ih t ht).1 (hk t ht)
      · intro hle
        exact ⟨fun hb => (by cases hb), fun u hu => (ih u hu).2 hle⟩
    | body c =>
      rw [goodIndex_iff h]
      constructor
      · rintro ⟨hlt, hk⟩
        obtain ⟨pid, hpid⟩ := Option.isSome_iff_exists.1 hen
        obtain ⟨g', id, hg', -, -⟩ := h.registerTid hlt pid
        have ht : regMachine.step s (.body c) = .ok ⟨g', Function.update s.passed c none⟩ := by
          simp only [regMachine, hpid, hg']
        exact (ih _ ht).1 (hk _ ht)
      · intro hle
        refine ⟨?_, fun u hu => (ih u hu).2 hle⟩
        simp only [RegStep.isBody, ↓reduceIte] at hle
        omega

/-- **Concurrent registration stays in the table exactly while it has room for every call that
gets past the check.** -/
theorem bodies_good_iff (evlistStr : CStr) (minId maxId freq : Nat) (pid : Int) (mutexOk : Bool)
    (namelist : Option (List CStr)) (tls tls' : Tls) (os : Os) (ret : Int) (g : Proc)
    (hinit : lprobeInit evlistStr minId maxId freq pid mutexOk namelist tls (Proc.initial os) =
      .ok (ret, tls', g))
    (acts : List RegStep) (hl : regMachine.Legal ⟨g, fun _ => none⟩ acts) :
    regMachine.AtEach ⟨g, fun _ => none⟩ acts GoodIndex ↔
      g.info.threadNb + acts.countP RegStep.isBody ≤ profThreadMax :=
  bodies_good_iff_of_slotInv (s := ⟨g, fun _ => none⟩)
    ((slotInv_procInitial os).lprobeInit hinit) hl

/-! ## A race for the last slot -/

theorem legal_bodies : ∀ {cs : List Nat} {s : RegSt}, cs.Nodup → (∀ c ∈ cs, (s.passed c).isSome) →
    regMachine.Legal s (cs.map .body)
  | [], _, _, _ => trivial
  | c :: cs, s, hnd, h => by
    obtain ⟨hc, hnd⟩ := List.nodup_cons.1 hnd
    refine ⟨h c List.mem_cons_self, fun t ht => legal_bodies hnd fun d hd => ?_⟩
    have hne : d ≠ c := fun e => hc (e ▸ hd)
    have hd' := h d (List.mem_cons_of_mem _ hd)
    simp only [regMachine] at ht
    split at ht
    · cases ht; exact hd'
    · split at ht
      · cases ht
        simpa only [Function.update_of_ne hne] using hd'
      · cases ht

/-- All calls test `thread_nid` before the first one gets the lock. -/
theorem legal_race {ds : List Nat} (hds : ds.Nodup) : ∀ {cs : List Nat} {s : RegSt}, cs.Nodup →
    s.proc.info.threadNid ≠ uintMax → (∀ c ∈ cs, s.passed c = none) →
    (∀ d ∈ ds, d ∈ cs ∨ (s.passed d).isSome) →
      regMachine.Legal s (cs.map (fun c => .check c (c + 1000)) ++ ds.map .body)
  | [], s, _, _, _, hd => legal_bodies hds fun d h => (hd d h).resolve_left (by simp)
  | c :: cs, s, hnd, hnid, hc, hd => by
    obtain ⟨hcc, hnd⟩ := List.nodup_cons.1 hnd
    refine ⟨hc c List.mem_cons_self, fun t ht => ?_⟩
    simp only [regMachine, hnid, ↓reduceIte] at ht
    cases ht
    refine legal_race hds hnd hnid (fun d h => ?_) fun d h => ?_
    · have hne : d ≠ c := fun e => hcc (e ▸ h)
      simpa only [Function.update_of_ne hne] using hc d (List.mem_cons_of_mem _ h)
    · by_cases hdc : d = c
      · subst hdc
        exact .inr (by simp)
      · simp only [Function.update_of_ne hdc]
        rcases hd d h with h | h
        · exact .inl ((List.mem_cons.1 h).resolve_left hdc)
        · exact .inr h

/-- 63 calls that all pass the check and then run their bodies, the last one first: with them the
table is full. -/
theorem bodies_good_iff_solo :
    regMachine.AtEach ⟨soloProc, fun _ => none⟩
      ((List.range 63).map (fun c => .check c (c + 1000)) ++ (List.range 63).reverse.map .body)
      GoodIndex := by
  have hnd : (List.range 63).Nodup := List.nodup_range
  refine (bodies_good_iff _ _ _ _ _ _ _ _ _ _ _ _ soloInit_eq _ (legal_race
    (List.nodup_reverse.2 hnd) hnd (by decide) (fun _ _ => rfl)
    fun _ h => .inl (List.mem_reverse.1 h))).2 ?_
  decide

/-- With one slot taken, 64 calls that all pass the check run one body too many. -/
theorem race_leaves_table :
    regMachine.Legal ⟨soloProc, fun _ => none⟩
      ((List.range 64).map (fun c => .check c (c + 1000)) ++ (List.range 64).map .body) ∧
    ¬ regMachine.AtEach ⟨soloProc, fun _ => none⟩
      ((List.range 64).map (fun c => .check c (c + 1000)) ++ (List.range 64).map .body)
      GoodIndex := by
  have hnd : (List.range 64).Nodup := List.nodup_range
  have hl := legal_race (s := ⟨soloProc, fun _ => none⟩) hnd hnd (by decide) (fun _ _ => rfl)
    (fun _ h => .inl h)
  refine ⟨hl, fun h => ?_⟩
  have hi : SlotInv soloProc :=
    (slotInv_procInitial _).lprobeInit
      (show lprobeInit _ _ _ _ _ _ _ _ (Proc.initial _) = _ from soloInit_eq)
  have hle := (bodies_good_iff_of_slotInv (s := ⟨soloProc, fun _ => none⟩) hi hl).1 h
  revert hle
  decide

end Lprofile.Probe
