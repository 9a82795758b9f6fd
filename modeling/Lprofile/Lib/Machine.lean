import Mathlib.Data.List.Basic
import Mathlib.Data.List.Induction

/-!
# Machines with faults

A `Machine` takes actions `α` on states `σ`; an action may end in a fault `ε`.
`Enabled s a` says that `a` can happen in `s` at all, so a `Legal` action list
is one the environment can really produce. `Machine.run` executes a list and
stops at the first fault.

`Legal.run_ok` is the invariant rule: an invariant of the history and the state
that every enabled step keeps, without a fault, holds after every legal run,
which then has no fault. `AtEach` and `Always` speak about all actions and all
states of a run.
-/

namespace Lprofile.Lib

structure Machine (σ α ε : Type) where
  Enabled : σ → α → Prop
  step : σ → α → Except ε σ

namespace Machine

variable {σ α ε : Type} (M : Machine σ α ε)

def run : σ → List α → Except ε σ
  | s, [] => .ok s
  | s, a :: as =>
    match M.step s a with
    | .ok s' => run s' as
    | .error e => .error e

/-- Every action is enabled in the state it is taken in. -/
def Legal : σ → List α → Prop
  | _, [] => True
  | s, a :: as => M.Enabled s a ∧ ∀ s', M.step s a = .ok s' → Legal s' as

/-- `Q` holds at every action of the run of `as` from `s`, in the state before it. -/
def AtEach (s : σ) (as : List α) (Q : σ → α → Prop) : Prop :=
  ∀ pre a post s', as = pre ++ a :: post → M.run s pre = .ok s' → Q s' a

/-- `Q` holds in every state the run of `as` from `s` goes through. -/
def Always (s : σ) (as : List α) (Q : σ → Prop) : Prop :=
  ∀ pre s', pre <+: as → M.run s pre = .ok s' → Q s'

variable {M}

@[simp] theorem run_nil (s : σ) : M.run s [] = .ok s := rfl

theorem run_cons_ok {s s' : σ} {a : α} {as : List α} (h : M.step s a = .ok s') :
    M.run s (a :: as) = M.run s' as := by
  simp only [run, h]

theorem run_cons_eq_ok {s s' : σ} {a : α} {as : List α} :
    M.run s (a :: as) = .ok s' ↔ ∃ t, M.step s a = .ok t ∧ M.run t as = .ok s' := by
  simp only [run]
  cases M.step s a with
  | ok t => simp
  | error e => simp

theorem run_append_ok {s s' : σ} {as bs : List α} (h : M.run s as = .ok s') :
    M.run s (as ++ bs) = M.run s' bs := by
  induction as generalizing s with
  | nil => cases h; rfl
  | cons a as ih =>
    obtain ⟨t, ht, hr⟩ := run_cons_eq_ok.1 h
    rw [List.cons_append, run_cons_ok ht, ih hr]

theorem run_append_eq_ok {s s' : σ} {as bs : List α} :
    M.run s (as ++ bs) = .ok s' ↔ ∃ t, M.run s as = .ok t ∧ M.run t bs = .ok s' := by
  induction as generalizing s with
  | nil => simp
  | cons a as ih =>
    rw [List.cons_append, run_cons_eq_ok]
    constructor
    · rintro ⟨u, hu, hr⟩
      obtain ⟨t, ht, hb⟩ := ih.1 hr
      exact ⟨t, run_cons_eq_ok.2 ⟨u, hu, ht⟩, hb⟩
    · rintro ⟨t, ht, hb⟩
      obtain ⟨u, hu, hr⟩ := run_cons_eq_ok.1 ht
      exact ⟨u, hu, ih.2 ⟨t, hr, hb⟩⟩

theorem run_snoc_eq_ok {s s' : σ} {as : List α} {a : α} :
    M.run s (as ++ [a]) = .ok s' ↔ ∃ t, M.run s as = .ok t ∧ M.step t a = .ok s' := by
  simp only [run_append_eq_ok, run_cons_eq_ok, run_nil, Except.ok.injEq, exists_eq_right]

/-- A map of states that every step commutes with commutes with every run. -/
theorem run_map {f : σ → σ} (hf : ∀ s a, M.step (f s) a = (M.step s a).map f) :
    ∀ (s : σ) (as : List α), M.run (f s) as = (M.run s as).map f
  | _, [] => rfl
  | s, a :: as => by
    simp only [run, hf]
    cases M.step s a with
    | ok t => exact run_map hf t as
    | error e => rfl

theorem Legal.cons {s s' : σ} {a : α} {as : List α} (hen : M.Enabled s a)
    (hs : M.step s a = .ok s') (h : M.Legal s' as) : M.Legal s (a :: as) := by
  refine ⟨hen, fun t ht => ?_⟩
  rw [hs] at ht
  cases ht
  exact h

theorem Legal.append {s : σ} {as bs : List α} (h : M.Legal s (as ++ bs)) :
    M.Legal s as ∧ ∀ t, M.run s as = .ok t → M.Legal t bs := by
  induction as generalizing s with
  | nil => exact ⟨trivial, fun t ht => by cases ht; exact h⟩
  | cons a as ih =>
    obtain ⟨he, hk⟩ := h
    refine ⟨⟨he, fun u hu => (ih (hk u hu)).1⟩, fun t ht => ?_⟩
    obtain ⟨u, hu, hr⟩ := run_cons_eq_ok.1 ht
    exact (ih (hk u hu)).2 t hr

/-- Legal runs one after the other. -/
theorem Legal.append_of_run {s t : σ} {as bs : List α} (ha : M.Legal s as)
    (hr : M.run s as = .ok t) (hb : M.Legal t bs) : M.Legal s (as ++ bs) := by
  induction as generalizing s with
  | nil =>
    cases hr
    exact hb
  | cons a as ih =>
    obtain ⟨u, hu, hr⟩ := run_cons_eq_ok.1 hr
    exact .cons ha.1 hu (ih (ha.2 u hu) hr)

/-- The action after a prefix of a legal run is enabled where the prefix ends. -/
theorem Legal.enabled {s t : σ} {pre post : List α} {a : α} (h : M.Legal s (pre ++ a :: post))
    (hr : M.run s pre = .ok t) : M.Enabled t a :=
  (h.append.2 t hr).1

theorem atEach_nil {s : σ} {Q : σ → α → Prop} : M.AtEach s [] Q := by
  intro pre a post s' e
  simp at e

theorem atEach_cons {s : σ} {a : α} {as : List α} {Q : σ → α → Prop} :
    M.AtEach s (a :: as) Q ↔ Q s a ∧ ∀ t, M.step s a = .ok t → M.AtEach t as Q := by
  constructor
  · intro h
    refine ⟨h [] a as s rfl rfl, fun t ht pre b post s' e hr => ?_⟩
    exact h (a :: pre) b post s' (by simp [e]) (by rw [run_cons_ok ht, hr])
  · rintro ⟨h0, h⟩ pre b post s' e hr
    cases pre with
    | nil => cases hr; cases e; exact h0
    | cons c pre =>
      cases e
      obtain ⟨t, ht, hr⟩ := run_cons_eq_ok.1 hr
      exact h t ht pre b post s' rfl hr

theorem atEach_congr {s : σ} {as : List α} {Q R : σ → α → Prop}
    (h : ∀ pre a post t, as = pre ++ a :: post → M.run s pre = .ok t → (Q t a ↔ R t a)) :
    M.AtEach s as Q ↔ M.AtEach s as R :=
  ⟨fun hq pre a post t e hr => (h pre a post t e hr).1 (hq pre a post t e hr),
    fun hq pre a post t e hr => (h pre a post t e hr).2 (hq pre a post t e hr)⟩

/-- **The invariant rule**, over the history `h` of the actions taken so far, for runs whose
actions all satisfy `A`. -/
theorem Legal.run_ok_from {P : List α → σ → Prop} {A : α → Prop}
    (hstep : ∀ h s a, P h s → A a → M.Enabled s a →
      ∃ s', M.step s a = .ok s' ∧ P (h ++ [a]) s') :
    ∀ {as : List α} {h : List α} {s : σ}, M.Legal s as → (∀ a ∈ as, A a) → P h s →
      ∃ s', M.run s as = .ok s' ∧ P (h ++ as) s'
  | [], h, s, _, _, hP => ⟨s, rfl, by simpa using hP⟩
  | a :: as, h, s, hl, hA, hP => by
    obtain ⟨t, ht, hPt⟩ := hstep h s a hP (hA a List.mem_cons_self) hl.1
    obtain ⟨s', hr, hP'⟩ := Legal.run_ok_from hstep (hl.2 t ht)
      (fun b hb => hA b (List.mem_cons_of_mem _ hb)) hPt
    exact ⟨s', by rw [run_cons_ok ht, hr], by simpa using hP'⟩

theorem Legal.run_ok_on {P : List α → σ → Prop} {A : α → Prop} {s : σ} {as : List α}
    (hstep : ∀ h s a, P h s → A a → M.Enabled s a → ∃ s', M.step s a = .ok s' ∧ P (h ++ [a]) s')
    (hl : M.Legal s as) (hA : ∀ a ∈ as, A a) (h0 : P [] s) :
    ∃ s', M.run s as = .ok s' ∧ P as s' := by
  simpa using hl.run_ok_from hstep hA h0

theorem Legal.run_ok {P : List α → σ → Prop} {s : σ} {as : List α}
    (hstep : ∀ h s a, P h s → M.Enabled s a → ∃ s', M.step s a = .ok s' ∧ P (h ++ [a]) s')
    (hl : M.Legal s as) (h0 : P [] s) : ∃ s', M.run s as = .ok s' ∧ P as s' :=
  hl.run_ok_on (A := fun _ => True) (fun h s a hP _ => hstep h s a hP) (fun _ _ => trivial) h0

/-- An invariant of the fault-free steps holds along every run. -/
theorem always_of_step {P : σ → Prop} {s : σ} {as : List α} (h0 : P s)
    (hstep : ∀ pre a post t t', as = pre ++ a :: post → M.run s pre = .ok t → P t →
      M.step t a = .ok t' → P t') : M.Always s as P := by
  intro pre s' hp hr
  induction pre using List.reverseRecOn generalizing s' with
  | nil => cases hr; exact h0
  | append_singleton pre a ih =>
    obtain ⟨t, ht, hs⟩ := run_snoc_eq_ok.1 hr
    obtain ⟨post, rfl⟩ := hp
    refine hstep pre a post t s' (by simp) ht (ih t ?_ ht) hs
    exact ⟨a :: post, by simp⟩

end Machine

end Lprofile.Lib
