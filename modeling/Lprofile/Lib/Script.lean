import Mathlib.Data.List.Basic

/-!
# Scripts

A script is a list of steps that are taken in order; a step that does not succeed
ends it. Each step leaves a state and a log of what it did. `none` as the result is
a step that is still waiting.

`runSteps_append` cuts a script in two. `runSteps_split` is the rule for an action
that only the last step takes: where it stands in the log, all steps before have
succeeded, and their log stands before it.
-/

namespace Lprofile.Lib

/-- What a step leaves behind. -/
structure Outcome (σ α : Type) where
  ret : Option Bool
  state : σ
  acts : List α

variable {σ α : Type}

def runSteps : List (σ → Outcome σ α) → σ → Outcome σ α
  | [], s => ⟨some true, s, []⟩
  | f :: fs, s =>
    let r := f s
    if r.ret = some true then
      let q := runSteps fs r.state
      ⟨q.ret, q.state, r.acts ++ q.acts⟩
    else r

theorem runSteps_cons_ok {f : σ → Outcome σ α} {fs : List (σ → Outcome σ α)} {s : σ}
    (h : (f s).ret = some true) :
    runSteps (f :: fs) s = ⟨(runSteps fs (f s).state).ret, (runSteps fs (f s).state).state,
      (f s).acts ++ (runSteps fs (f s).state).acts⟩ := by
  simp only [runSteps, h, ↓reduceIte]

theorem runSteps_cons_stop {f : σ → Outcome σ α} {fs : List (σ → Outcome σ α)} {s : σ}
    (h : (f s).ret ≠ some true) : runSteps (f :: fs) s = f s := by
  simp only [runSteps, h, ↓reduceIte]

theorem runSteps_cons_eq_true {f : σ → Outcome σ α} {fs : List (σ → Outcome σ α)} {s : σ} :
    (runSteps (f :: fs) s).ret = some true ↔
      (f s).ret = some true ∧ (runSteps fs (f s).state).ret = some true := by
  by_cases h : (f s).ret = some true
  · rw [runSteps_cons_ok h, and_iff_right h]
  · rw [runSteps_cons_stop h]
    exact ⟨fun h' => absurd h' h, fun h' => absurd h'.1 h⟩

theorem runSteps_singleton (f : σ → Outcome σ α) (s : σ) : runSteps [f] s = f s := by
  by_cases h : (f s).ret = some true
  · rw [runSteps_cons_ok h]
    simp only [runSteps, List.append_nil, ← h]
  · rw [runSteps_cons_stop h]

theorem runSteps_append (fs gs : List (σ → Outcome σ α)) (s : σ) :
    runSteps (fs ++ gs) s =
      if (runSteps fs s).ret = some true then
        ⟨(runSteps gs (runSteps fs s).state).ret, (runSteps gs (runSteps fs s).state).state,
          (runSteps fs s).acts ++ (runSteps gs (runSteps fs s).state).acts⟩
      else runSteps fs s := by
  induction fs generalizing s with
  | nil => rfl
  | cons f fs ih =>
    rw [List.cons_append]
    by_cases h : (f s).ret = some true
    · rw [runSteps_cons_ok h, runSteps_cons_ok h, ih]
      dsimp only
      split
      · simp only [List.append_assoc]
      · rfl
    · rw [runSteps_cons_stop h, runSteps_cons_stop h, if_neg h]

/-- **The invariant rule**, over the state and the log so far. -/
theorem runSteps_inv {I : σ → List α → Prop} {fs : List (σ → Outcome σ α)}
    (h : ∀ f ∈ fs, ∀ s log, I s log → I (f s).state (log ++ (f s).acts)) {s : σ} {log : List α}
    (hI : I s log) : I (runSteps fs s).state (log ++ (runSteps fs s).acts) := by
  induction fs generalizing s log with
  | nil => simpa [runSteps] using hI
  | cons f fs ih =>
    obtain ⟨hf, hfs⟩ := List.forall_mem_cons.1 h
    by_cases hok : (f s).ret = some true
    · rw [runSteps_cons_ok hok, ← List.append_assoc]
      exact ih hfs (hf s log hI)
    · rw [runSteps_cons_stop hok]
      exact hf s log hI

/-- What the steps of a script do not do, the script does not. -/
theorem runSteps_acts {P : α → Prop} {fs : List (σ → Outcome σ α)}
    (h : ∀ f ∈ fs, ∀ s, ∀ a ∈ (f s).acts, P a) {s : σ} : ∀ a ∈ (runSteps fs s).acts, P a := by
  have hstep : ∀ f ∈ fs, ∀ (s : σ) (log : List α), (∀ a ∈ log, P a) →
      ∀ a ∈ log ++ (f s).acts, P a := by
    intro f hf s log hlog a ha
    rcases List.mem_append.1 ha with ha | ha
    · exact hlog a ha
    · exact h f hf s a ha
  have hnil : ∀ a ∈ ([] : List α), P a := fun a ha => (by cases ha)
  simpa using runSteps_inv (I := fun _ log => ∀ a ∈ log, P a) hstep hnil

/-- A script waits only where one of its steps does. -/
theorem runSteps_ret {fs : List (σ → Outcome σ α)} (h : ∀ f ∈ fs, ∀ s, (f s).ret ≠ none) {s : σ} :
    (runSteps fs s).ret ≠ none := by
  induction fs generalizing s with
  | nil => exact Option.some_ne_none _
  | cons f fs ih =>
    obtain ⟨hf, hfs⟩ := List.forall_mem_cons.1 h
    by_cases hok : (f s).ret = some true
    · rw [runSteps_cons_ok hok]
      exact ih hfs
    · rw [runSteps_cons_stop hok]
      exact hf s

/-- An action that only the last step takes stands behind the whole log of the steps before. -/
theorem runSteps_split {P : α → Prop} {fs : List (σ → Outcome σ α)} {g : σ → Outcome σ α}
    (h : ∀ f ∈ fs, ∀ s, ∀ a ∈ (f s).acts, ¬ P a) {s : σ} {before after : List α} {a : α}
    (ha : P a) (hacts : (runSteps (fs ++ [g]) s).acts = before ++ a :: after) :
    (runSteps fs s).ret = some true ∧ ∃ mid, before = (runSteps fs s).acts ++ mid ∧
      (g (runSteps fs s).state).acts = mid ++ a :: after := by
  have hfs : ∀ b ∈ (runSteps fs s).acts, ¬ P b := runSteps_acts h
  rw [runSteps_append] at hacts
  split at hacts
  · rename_i hok
    refine ⟨hok, ?_⟩
    rw [runSteps_singleton] at hacts
    rcases List.append_eq_append_iff.1 hacts with ⟨mid, hbefore, hg⟩ | ⟨mid, hlog, hmid⟩
    · exact ⟨mid, hbefore, hg⟩
    · cases mid with
      | nil => exact ⟨[], by simpa using hlog.symm, by simpa using hmid.symm⟩
      | cons b mid =>
        obtain ⟨rfl, -⟩ := List.cons.inj hmid
        exact absurd ha (hfs _ (by simp [hlog]))
  · refine absurd ha (hfs a ?_)
    rw [hacts]
    simp

end Lprofile.Lib
