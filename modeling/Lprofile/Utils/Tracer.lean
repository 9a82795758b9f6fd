import Lprofile.Utils.Session

/-!
# Attached processes

`lprofile tracer -p pid` works on a process that is there already: it attaches to it,
puts in its calls and lets it go on, and at the end `destroy` takes the calls out
again and detaches (`tracer.cc`). `main` calls `destroy` only after `init` has
succeeded, and `init` itself has its `detach` behind a label that nothing jumps to. So
`main` lets a process go, without a probe left in it, exactly when its targets are
found or it has ended by itself (`tracee_let_go_iff`).

When `main` has returned the global `bpatch` is destroyed, and with it every process
that is still registered (`BPatch.C`, `BPatch_process.C`): one that was attached to is
detached from. That is what lets go of the process whose targets were not found, and no
process is kept (`tracee_let_go`).
-/

namespace Lprofile.Utils

open Lprofile.Lib Lprofile.Probe

/-- The members of `TracerTest` after `parseArgs`. -/
structure TracerTest where
  pid : Int
  opts : CountOpts
  count : CountUtil

section

variable (env : DyninstEnv)

/-- `TracerTest::init`. -/
def TracerTest.init (t : TracerTest) : Outcome CountUtil Action :=
  if !env.create then ⟨some false, t.count, []⟩
  else
    let r := findTargets env false t.count
    ⟨some r.1, r.2.1, [.processAttach t.pid]⟩

/-- The end of `process`. -/
def continueStep (fuel : Nat) : Step := fun c =>
  if !env.continues then ⟨some false, c, []⟩
  else
    let r := waitLoop env fuel 0
    ⟨r.1, c, .continueExecution :: r.2⟩

/-- `TracerTest::process`; `callInit` and `insertExit` are those of a process that `prof` made. -/
def TracerTest.process (t : TracerTest) (fuel : Nat) : Step :=
  runSteps [loadFunctions env, initStep env .proc [] t.opts, countStep env, exitStep env .proc [],
    continueStep env fuel]

/-- The loop of `clearSnippets`: has the tracee stopped, and what was done. -/
def stopLoop : Nat → Nat → Bool × List Action
  | 0, _ => (false, [])
  | fuel + 1, n =>
    if env.stopped n then (true, [])
    else
      let r := stopLoop fuel (n + 1)
      (r.1, .stopExecution :: r.2)

/-- `CountUtil::clearSnippet`. -/
def clearSnippet (c : CountUtil) : List Action :=
  c.targetFuncs.map fun t => .removeInstrumentation t.func

/-- `TracerTest::clearSnippets`, after `n` status changes. -/
def clearSnippets (c : CountUtil) (n fuel : Nat) : Bool × List Action :=
  if env.terminated n then (true, [])
  else
    let r := stopLoop env fuel 0
    (r.1, r.2 ++ if r.1 then clearSnippet c else [])

/-- `TracerTest::destroy`. -/
def destroy (c : CountUtil) (n fuel : Nat) : Bool × List Action :=
  if env.terminated n then (true, [])
  else
    let r := clearSnippets env c n fuel
    (r.1, r.2 ++ if r.1 then [.detach] else [])

/-- The status changes waited for. -/
def waits (acts : List Action) : Nat := acts.count .waitForStatusChange

/-- `main` after `parseArgs`. -/
def TracerTest.main (t : TracerTest) (fuel : Nat) : Option Nat × List Action :=
  let i := t.init env
  if i.ret ≠ some true then (some 1, i.acts)
  else
    let p := t.process env fuel i.state
    match p.ret with
    | none => (none, i.acts ++ p.acts)
    | some ok =>
      let d := destroy env p.state (waits p.acts) fuel
      (if d.1 then some (if ok then 0 else 1) else none, i.acts ++ p.acts ++ d.2)

/-- Is the process in `procsByPid`? -/
def registerStep (registered : Bool) : Action → Bool
  | .processAttach _ => true
  | .detach => false
  | _ => registered

/-- `BPatch::~BPatch`, which deletes the registered processes: `~BPatch_process` detaches from one
that was attached to, unless it has ended. -/
def destroyBPatch (acts : List Action) : List Action :=
  if acts.foldl registerStep false && !env.terminated (waits acts) then [.detach] else []

/-- `main`, and the destructor of the global `bpatch` when it has returned. -/
def TracerTest.run (t : TracerTest) (fuel : Nat) : Option Nat × List Action :=
  let r := t.main env fuel
  match r.1 with
  | none => r
  | some status => (some status, r.2 ++ destroyBPatch env r.2)

end

/-! ## What is left in the tracee -/

/-- What an action does to the probe calls in the mutatee. -/
def probeStep (probes : List Snippet) : Action → List Snippet
  | .insertSnippet s => probes ++ [s]
  | .removeInstrumentation func => probes.filter (·.func ≠ func)
  | _ => probes

def probesLeft (acts : List Action) : List Snippet := acts.foldl probeStep []

/-- The process has ended, or it was detached from with no probe left in it. -/
def LetGo (env : DyninstEnv) (acts : List Action) : Prop :=
  env.terminated (waits acts) = true ∨ acts.getLast? = some .detach ∧ probesLeft acts = []

/-- Without removals the probes are what was put in. -/
theorem probesLeft_eq_snippetsOf {acts : List Action}
    (h : ∀ a ∈ acts, ∀ func, a ≠ .removeInstrumentation func) :
    probesLeft acts = snippetsOf acts := by
  have hfold : ∀ probes, acts.foldl probeStep probes = probes ++ snippetsOf acts := by
    induction acts with
    | nil => simp [snippetsOf]
    | cons a acts ih =>
      obtain ⟨ha, hacts⟩ := List.forall_mem_cons.1 h
      intro probes
      rw [List.foldl_cons, ih hacts]
      cases a with
      | insertSnippet s => simp [probeStep, snippetsOf, Action.snippet?]
      | removeInstrumentation func => exact absurd rfl (ha func)
      | _ => rfl
  exact (hfold []).trans (List.nil_append _)

theorem foldl_stops (probes : List Snippet) {stops : List Action}
    (h : ∀ a ∈ stops, a = .stopExecution) : stops.foldl probeStep probes = probes := by
  induction stops with
  | nil => rfl
  | cons a stops ih =>
    obtain ⟨rfl, hstops⟩ := List.forall_mem_cons.1 h
    exact ih hstops

theorem foldl_clearSnippet (targets : List TargetFunc) (probes : List Snippet) :
    (targets.map fun t => Action.removeInstrumentation t.func).foldl probeStep probes =
      probes.filter fun s => s.func ∉ targets.map (·.func) := by
  induction targets generalizing probes with
  | nil => simp
  | cons t targets ih =>
    rw [List.map_cons, List.foldl_cons, ih, probeStep, List.filter_filter]
    refine List.filter_congr fun s _ => ?_
    by_cases hs : s.func = t.func <;> simp [hs]

/-! ## Runs -/

section

variable (env : DyninstEnv)

/-- The steps that put the calls in. -/
def TracerTest.steps (t : TracerTest) : List Step :=
  [loadFunctions env, initStep env .proc [] t.opts, countStep env, exitStep env .proc []]

/-- The actions of these steps. -/
def Action.prepares : Action → Bool
  | .loadLibrary _ => true
  | .oneTimeCode _ => true
  | .insertSnippet _ => true
  | .insertFiniCallback _ => true
  | _ => false

theorem steps_prepare (t : TracerTest) :
    ∀ f ∈ t.steps env, ∀ c, ∀ a ∈ (f c).acts, a.prepares = true := by
  intro f hf c a ha
  simp only [TracerTest.steps, List.mem_cons, List.not_mem_nil, or_false] at hf
  rcases hf with rfl | rfl | rfl | rfl
  · have hload : ∀ b ∈ (loadFunctions env c).acts, b = .loadLibrary libcnt := by
      unfold loadFunctions
      dsimp only
      split_ifs <;> simp
    rw [hload a ha]
    rfl
  · rw [List.mem_singleton.1 ha]
    rfl
  · obtain ⟨s, -, rfl⟩ := List.mem_map.1 ha
    rfl
  · obtain ⟨f, -, rfl⟩ := List.mem_map.1 ha
    rfl

/-- The probes put in are in functions that are targets. -/
def InTargets (c : CountUtil) (acts : List Action) : Prop :=
  ∀ s ∈ snippetsOf acts, s.func ∈ c.targetFuncs.map (·.func)

theorem InTargets.step {c c' : CountUtil} {acts acts' : List Action} (h : InTargets c acts)
    (hc : c.targetFuncs <+: c'.targetFuncs) (h' : InTargets c' acts') :
    InTargets c' (acts ++ acts') := by
  intro s hs
  rw [snippetsOf_append] at hs
  rcases List.mem_append.1 hs with hs | hs
  · exact (hc.map _).subset (h s hs)
  · exact h' s hs

theorem inTargets_of_none {c : CountUtil} {acts : List Action} (h : snippetsOf acts = []) :
    InTargets c acts := by
  intro s hs
  rw [h] at hs
  cases hs

theorem insertExit_targets (mode : Mode) (mainmod : Option Nat) (targetElf : CStr)
    (funcs : List CallbackFunc) (c : CountUtil) :
    c.targetFuncs <+: (insertExit mode mainmod targetElf funcs c).2.targetFuncs := by
  obtain ⟨calls, hcalls⟩ := addsTargets_insertExit mode mainmod targetElf funcs c
  rw [hcalls, addTargets_funcs]
  exact List.prefix_append _ _

theorem steps_inTargets (t : TracerTest) : ∀ f ∈ t.steps env, ∀ c acts, InTargets c acts →
    InTargets (f c).state (acts ++ (f c).acts) := by
  intro f hf c acts h
  simp only [TracerTest.steps, List.mem_cons, List.not_mem_nil, or_false] at hf
  rcases hf with rfl | rfl | rfl | rfl
  · have hload : (loadFunctions env c).state = c ∧ snippetsOf (loadFunctions env c).acts = [] := by
      unfold loadFunctions
      dsimp only
      split_ifs <;> exact ⟨rfl, rfl⟩
    exact h.step (by rw [hload.1]) (inTargets_of_none hload.2)
  · exact h.step List.prefix_rfl (inTargets_of_none (snippetsOf_initStep env _ _ _ c))
  · refine h.step List.prefix_rfl fun s hs => ?_
    rw [countStep, snippetsOf_map_insert] at hs
    obtain ⟨tf, htf, -, hfunc, -⟩ := exists_target_of_mem_insertCount hs
    exact List.mem_map.2 ⟨tf, htf, hfunc⟩
  · exact h.step (insertExit_targets _ _ _ _ c) (inTargets_of_none (snippetsOf_exitStep env _ _ c))

theorem waitLoop_ends : ∀ (fuel n : Nat), (waitLoop env fuel n).1 = some true →
    env.terminated (n + (waitLoop env fuel n).2.length) = true
  | 0, _, h => (by cases h)
  | fuel + 1, n, h => by
    unfold waitLoop at h ⊢
    split at h
    · rename_i hterm
      rw [if_pos hterm]
      exact hterm
    · rename_i hterm
      rw [if_neg hterm]
      have hrest := waitLoop_ends fuel (n + 1) h
      rw [List.length_cons]
      rwa [Nat.add_right_comm] at hrest

theorem waits_eq_zero {acts : List Action} (h : ∀ a ∈ acts, a ≠ .waitForStatusChange) :
    waits acts = 0 := List.count_eq_zero.2 fun hmem => h _ hmem rfl

theorem waits_waitLoop (fuel n : Nat) :
    waits (waitLoop env fuel n).2 = (waitLoop env fuel n).2.length :=
  List.count_eq_length.2 fun a ha => (waitLoop_acts env fuel n a ha).symm

/-- What `process` does, and that it succeeds only when the tracee has ended. -/
theorem process_spec (t : TracerTest) (fuel : Nat) (c : CountUtil) :
    (∀ a ∈ (t.process env fuel c).acts,
      a.prepares = true ∨ a = .continueExecution ∨ a = .waitForStatusChange) ∧
    InTargets (t.process env fuel c).state (t.process env fuel c).acts ∧
    ((t.process env fuel c).ret = some true →
      env.terminated (waits (t.process env fuel c).acts) = true) := by
  have hprep := runSteps_acts (steps_prepare env t) (s := c)
  have hin : InTargets (runSteps (t.steps env) c).state (runSteps (t.steps env) c).acts := by
    have hnone : InTargets c [] := inTargets_of_none rfl
    simpa using runSteps_inv (steps_inTargets env t) hnone
  have hlast : ∀ c, ∀ a ∈ (continueStep env fuel c).acts,
      a = .continueExecution ∨ a = .waitForStatusChange := by
    intro c a ha
    unfold continueStep at ha
    split at ha
    · cases ha
    · rcases List.mem_cons.1 ha with rfl | ha
      · exact .inl rfl
      · exact .inr (waitLoop_acts env fuel 0 a ha)
  have hprocess : t.process env fuel = runSteps (t.steps env ++ [continueStep env fuel]) := rfl
  rw [hprocess, runSteps_append]
  split
  · rw [runSteps_singleton]
    refine ⟨fun a ha => ?_, ?_, fun h => ?_⟩
    · rcases List.mem_append.1 ha with ha | ha
      · exact .inl (hprep a ha)
      · exact .inr (hlast _ a ha)
    · have hstate : (continueStep env fuel (runSteps (t.steps env) c).state).state =
          (runSteps (t.steps env) c).state := by
        unfold continueStep
        split <;> rfl
      refine hin.step (by rw [hstate]) (inTargets_of_none (snippetsOf_eq_nil fun a ha => ?_))
      rcases hlast _ a ha with rfl | rfl <;> rfl
    · have hzero : waits (runSteps (t.steps env) c).acts = 0 := by
        refine waits_eq_zero fun a ha e => ?_
        have := hprep a ha
        rw [e] at this
        cases this
      unfold continueStep at h ⊢
      split at h
      · cases h
      · rename_i hcont
        have hend := waitLoop_ends env fuel 0 h
        rw [if_neg hcont]
        dsimp only
        rw [waits, List.count_append, ← waits, ← waits, hzero, Nat.zero_add]
        rw [waits, List.count_cons_of_ne (by simp), ← waits, waits_waitLoop]
        rwa [Nat.zero_add] at hend
  · rename_i hstop
    exact ⟨fun a ha => .inl (hprep a ha), hin, fun h => absurd h hstop⟩

theorem stopLoop_acts : ∀ (fuel n : Nat), ∀ a ∈ (stopLoop env fuel n).2, a = .stopExecution
  | 0, _, a, ha => (by cases ha)
  | fuel + 1, n, a, ha => by
    unfold stopLoop at ha
    split at ha
    · cases ha
    · rcases List.mem_cons.1 ha with rfl | ha
      · rfl
      · exact stopLoop_acts fuel (n + 1) a ha

/-- `destroy` detaches from a process that has not ended, with its probes taken out before. -/
theorem destroy_spec {c : CountUtil} {acts : List Action} {n fuel : Nat}
    (hacts : ∀ a ∈ acts, a.prepares = true ∨ a = .continueExecution ∨ a = .waitForStatusChange)
    (hin : InTargets c acts) (hend : (destroy env c n fuel).1 = true) :
    (env.terminated n = true ∧ (destroy env c n fuel).2 = []) ∨
      (acts ++ (destroy env c n fuel).2).getLast? = some .detach ∧
        probesLeft (acts ++ (destroy env c n fuel).2) = [] := by
  unfold destroy clearSnippets at hend ⊢
  by_cases hterm : env.terminated n = true
  · exact .inl ⟨hterm, by rw [if_pos hterm]⟩
  · simp only [hterm, Bool.false_eq_true, ↓reduceIte] at hend ⊢
    simp only [hend, ↓reduceIte, ← List.append_assoc]
    refine .inr ⟨by simp, ?_⟩
    have hput : probesLeft acts = snippetsOf acts := by
      refine probesLeft_eq_snippetsOf fun a ha func e => ?_
      rw [e] at ha
      simpa [Action.prepares] using hacts _ ha
    simp only [probesLeft, List.foldl_append, clearSnippet]
    rw [← probesLeft, foldl_stops _ (stopLoop_acts env fuel 0), foldl_clearSnippet, hput]
    change (snippetsOf acts).filter _ = []
    refine List.filter_eq_nil_iff.2 fun s hs => ?_
    simpa using hin s hs

theorem waits_attach (pid : Int) (acts : List Action) :
    waits (.processAttach pid :: acts) = waits acts := List.count_cons_of_ne (by simp)

/-- `init` leaves the process as it has attached to it. -/
theorem main_of_not_found (t : TracerTest) (fuel : Nat) (hattach : env.create = true)
    (hfound : ¬ (findTargets env false t.count).1 = true) :
    t.main env fuel = (some 1, [.processAttach t.pid]) := by
  simp [TracerTest.main, TracerTest.init, hattach, hfound]

/-- `main` lets the tracee go exactly when its targets are found or it has ended by itself, and
returns 0 only when it has ended. -/
theorem tracee_let_go_iff (t : TracerTest) (fuel : Nat) (hattach : env.create = true)
    {status : Nat} {acts : List Action} (hmain : t.main env fuel = (some status, acts)) :
    (LetGo env acts ↔
      (findTargets env false t.count).1 = true ∨ env.terminated 0 = true) ∧
    (status = 0 → env.terminated (waits acts) = true) := by
  by_cases hfound : (findTargets env false t.count).1 = true
  · unfold TracerTest.main TracerTest.init at hmain
    simp only [hattach, Bool.not_true, Bool.false_eq_true, ↓reduceIte] at hmain
    simp only [hfound, ne_eq, not_true_eq_false, ↓reduceIte] at hmain
    generalize (findTargets env false t.count).2.1 = c at hmain
    obtain ⟨hkinds, hin, hends⟩ := process_spec env t fuel c
    generalize t.process env fuel c = p at hmain hkinds hin hends
    rcases hret : p.ret with _ | ok
    · rw [hret] at hmain
      cases hmain
    · rw [hret] at hmain
      have hend : (destroy env p.state (waits p.acts) fuel).1 = true := by
        by_contra hno
        simp [hno] at hmain
      simp only [hend, ↓reduceIte, Prod.mk.injEq, Option.some.injEq] at hmain
      obtain ⟨rfl, rfl⟩ := hmain
      rw [List.append_assoc, List.singleton_append]
      refine ⟨iff_of_true ?_ (.inl hfound), fun hstatus => ?_⟩
      · rcases destroy_spec env hkinds hin hend with ⟨hterm, hnil⟩ | ⟨hlast, hleft⟩
        · left
          rwa [waits_attach, hnil, List.append_nil]
        · refine .inr ⟨?_, hleft⟩
          rw [List.getLast?_cons, hlast]
          rfl
      · cases ok with
        | false => cases hstatus
        | true =>
          have hterm := hends hret
          have hnil : (destroy env p.state (waits p.acts) fuel).2 = [] := by
            rw [destroy, if_pos hterm]
          rwa [waits_attach, hnil, List.append_nil]
  · rw [main_of_not_found env t fuel hattach hfound] at hmain
    cases hmain
    refine ⟨⟨fun h => ?_, fun h => ?_⟩, fun h => (by cases h)⟩
    · rcases h with hterm | ⟨hlast, -⟩
      · exact .inr hterm
      · cases hlast
    · exact .inl (h.resolve_left hfound)

theorem waits_destroyBPatch (acts : List Action) :
    waits (acts ++ destroyBPatch env acts) = waits acts := by
  have hnone : waits (destroyBPatch env acts) = 0 := by
    unfold destroyBPatch
    split <;> rfl
  rw [waits, List.count_append, ← waits, ← waits, hnone, Nat.add_zero]

/-- A process that has been let go is not touched again. -/
theorem LetGo.destroyBPatch {acts : List Action} (h : LetGo env acts) :
    destroyBPatch env acts = [] := by
  unfold Utils.destroyBPatch
  rcases h with hterm | ⟨hlast, -⟩
  · rw [if_neg]
    simp [hterm]
  · obtain ⟨before, rfl⟩ := List.getLast?_eq_some_iff.1 hlast
    rw [List.foldl_append]
    rfl

end

/-- `lprofile tracer -p 7`. -/
def pidTest : TracerTest := ⟨7, ⟨[], [], [], 0⟩, .new patternAll⟩

/-- Nothing in the tracee matches. -/
def unmatchedTest : TracerTest := ⟨7, ⟨[], [], [], 0⟩, .new "nothing".toList⟩

end Lprofile.Utils
