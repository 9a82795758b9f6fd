import Lprofile.Lib.Script
import Lprofile.Utils.ElfTargets
import Lprofile.Utils.Instrumented
import Lprofile.Utils.TidOffset

/-!
# Sessions

A command works on its mutatee through Dyninst: it loads the probe library, puts in
the calls, and lets the mutatee run or writes it to a file (`prof.cc`, `tracer.cc`).
`Action` is what it does to the mutatee, in order, and `DyninstEnv` is what Dyninst
answers; a step that fails ends `process` (`runSteps`).

The mutatee of `prof` is let loose only after all of it is in place
(`prof_released`): the init function has run, each target that has entry and exit
points has its two probes, with numbers in the range the init function was given.
-/

namespace Lprofile.Utils

open Lprofile.Lib Lprofile.Probe

/-! ## The init function -/

/-- The options of `CountUtil`; nothing sets `freq` before the option `-F` does. -/
structure CountOpts where
  output : CStr
  evlist : CStr
  logfile : CStr
  freq : Nat
  deriving DecidableEq

/-- The arguments of `lprobe_init`. -/
@[ext] structure InitArgs where
  evlist : CStr
  logfile : CStr
  min : Nat
  max : Nat
  freq : Nat
  deriving DecidableEq

/-- `EVLIST_DEF`. -/
def evlistDef : CStr := "l1d-read-misses".toList

/-- `LOGFILE_DEF`. -/
def logfileDef : CStr := "profile.log".toList

/-- One round of `calculateRange`; the range is `(min, max)`. -/
def rangeStep (range : Nat × Nat) (t : TargetFunc) : Nat × Nat :=
  if t.index = uintMax then range
  else (if range.1 > t.index then t.index else range.1,
    if range.2 < t.index then t.index else range.2)

def calculateRange (targets : List TargetFunc) : Nat × Nat := targets.foldl rangeStep (uintMax, 0)

def buildInitArgs (opts : CountOpts) (c : CountUtil) : InitArgs where
  evlist := if opts.evlist.length = 0 then evlistDef else opts.evlist
  logfile := if opts.logfile.length = 0 then logfileDef else opts.logfile
  min := (calculateRange c.targetFuncs).1
  max := (calculateRange c.targetFuncs).2
  freq := opts.freq

/-! ## Dyninst -/

/-- What is done to the mutatee. -/
inductive Action where
  | processCreate (bin : CStr)
  | openBinary (bin : CStr)
  | processAttach (pid : Int)
  | loadLibrary (path : CStr)
  | oneTimeCode (args : InitArgs)
  | insertInitCallback (func : FuncRef) (args : InitArgs)
  | insertFiniCallback (func : FuncRef)
  | insertSnippet (s : Snippet)
  | writeTidOffset (offset : Nat)
  | wrapPthreadCreate
  | continueExecution
  | waitForStatusChange
  | writeFile (path : CStr)
  | stopExecution
  | removeInstrumentation (func : FuncRef)
  | detach
  deriving DecidableEq

/-- The answers. `create` is for the mutatee itself; `probeFunc` for the functions of the probe
library; `initFuncs` and `finiFuncs` are the functions found for `^_init` and `^_fini`, and
`mainmod` is the module of `main`. `terminated n` is `isTerminated` after `n` status changes, and
`stopped n` is `isStopped` after `n` attempts to stop. -/
structure DyninstEnv where
  create : Bool
  image : BPatchImage
  findFunction : BPatchObject → CStr → List BPatchFunction
  skip : List CStr
  load : BPatchObject → LoadEnv
  fs : Fs
  loadLibrary : CStr → Bool
  probeFunc : CStr → Bool
  initFuncs : List CallbackFunc
  finiFuncs : List CallbackFunc
  mainmod : Option Nat
  oneTimeCode : InitArgs → Int
  insert : InsertEnv
  pthread : PthreadEnv
  continues : Bool
  terminated : Nat → Bool
  stopped : Nat → Bool
  writeFile : CStr → Bool

/-- `LIBCNT`. -/
def libcnt : CStr := "/home/jiaru/lprofile/build/probe/libprobe.so".toList

/-- A step on the targets. -/
abbrev Step := CountUtil → Outcome CountUtil Action

section

variable (env : DyninstEnv)

def findTargets (isWrap : Bool) (c : CountUtil) : Bool × CountUtil × Fs :=
  getTargetFuncs env.findFunction env.skip env.load isWrap env.image.objects c env.fs

def loadFunctions : Step := fun c =>
  if !env.loadLibrary libcnt then ⟨some false, c, []⟩
  else
    let find := fun name : String => env.probeFunc name.toList
    if !find "lprobe_func_entry" || !find "lprobe_func_exit" then
      ⟨some false, c, [.loadLibrary libcnt]⟩
    else if !find "lprobe_init" || !find "lprobe_pthread_create" then
      ⟨some false, c, [.loadLibrary libcnt]⟩
    else if !find "lprobe_exit" || !find "lprobe_pthread_exit" then
      ⟨some false, c, [.loadLibrary libcnt]⟩
    else ⟨some true, c, [.loadLibrary libcnt]⟩

/-- The function the loop of `insertInit` or `insertExit` puts the call into. -/
def callbackFunc (skip : CallbackFunc → Bool) (funcs : List CallbackFunc) : Option CallbackFunc :=
  (funcs.find? fun f => !skip f).filter (·.inserts)

/-- `ProfTest::insertInit`. -/
def initStep (mode : Mode) (targetElf : CStr) (opts : CountOpts) : Step := fun c =>
  let args := buildInitArgs opts c
  let r := insertInit mode (env.oneTimeCode args) targetElf env.initFuncs c
  match mode with
  | .proc => ⟨some r.1, r.2, [.oneTimeCode args]⟩
  | .edit => ⟨some r.1, r.2, (callbackFunc (·.objName != targetElf) env.initFuncs).toList.map
      fun f => .insertInitCallback f.func args⟩

def countStep : Step := fun c =>
  let r := insertCount env.insert c.targetFuncs
  ⟨some r.1, c, r.2.map .insertSnippet⟩

/-- `ProfTest::insertExit`; that of `TracerTest` is the one for a process. -/
def exitStep (mode : Mode) (targetElf : CStr) : Step := fun c =>
  let r := insertExit mode env.mainmod targetElf env.finiFuncs c
  let skip : CallbackFunc → Bool := fun f =>
    match mode with
    | .proc => some f.module != env.mainmod
    | .edit => f.objName != targetElf
  ⟨some r.1, r.2, (callbackFunc skip env.finiFuncs).toList.map fun f => .insertFiniCallback f.func⟩

def pthreadStep : Step := fun c =>
  let r := wrapPthreadFunc env.image env.pthread
  ⟨some r.ret, c, r.tidOffset.toList.map .writeTidOffset ++
    if r.wrapped then [.wrapPthreadCreate] else []⟩

/-- `while (!proc->isTerminated()) bpatch.waitForStatusChange();` after `n` changes. -/
def waitLoop : Nat → Nat → Option Bool × List Action
  | 0, _ => (none, [])
  | fuel + 1, n =>
    if env.terminated n then (some true, [])
    else
      let r := waitLoop fuel (n + 1)
      (r.1, .waitForStatusChange :: r.2)

/-! ## `prof` -/

/-- The members of `ProfTest` after `parseArgs`. -/
structure ProfTest where
  mode : Mode
  mutteeBin : CStr
  output : CStr
  opts : CountOpts
  count : CountUtil

/-- The name of the file without its directories. -/
def ProfTest.targetElf (t : ProfTest) : CStr := baseName t.mutteeBin

/-- How `init` gets hold of the mutatee. -/
def ProfTest.create (t : ProfTest) : Action :=
  match t.mode with
  | .proc => .processCreate t.mutteeBin
  | .edit => .openBinary t.mutteeBin

/-- `ProfTest::init`. -/
def ProfTest.init (t : ProfTest) : Outcome CountUtil Action :=
  if !env.create then ⟨some false, t.count, []⟩
  else
    let r := findTargets env false t.count
    ⟨some r.1, r.2.1, [t.create]⟩

/-- The end of `process`: the mutatee is started, or written. -/
def ProfTest.finish (t : ProfTest) (fuel : Nat) : Step := fun c =>
  match t.mode with
  | .proc =>
    let r := waitLoop env fuel 0
    ⟨r.1, c, .continueExecution :: r.2⟩
  | .edit =>
    if !env.writeFile t.output then ⟨some false, c, []⟩
    else ⟨some true, c, [.writeFile t.output]⟩

/-- The steps of `ProfTest::process` before the end. -/
def ProfTest.steps (t : ProfTest) : List Step :=
  [loadFunctions env, initStep env t.mode t.targetElf t.opts, countStep env,
    exitStep env t.mode t.targetElf, pthreadStep env]

/-- `ProfTest::process`. -/
def ProfTest.process (t : ProfTest) (fuel : Nat) : Step :=
  runSteps (t.steps env ++ [t.finish env fuel])

/-- `main` after `parseArgs`: `init`, and `process`; `destroy` does nothing. -/
def ProfTest.main (t : ProfTest) (fuel : Nat) : Option Nat × List Action :=
  let i := t.init env
  if i.ret ≠ some true then (some 1, i.acts)
  else
    let p := t.process env fuel i.state
    (p.ret.map fun ok => if ok then 0 else 1, i.acts ++ p.acts)

end

/-! ## The mutatee as it is let loose -/

/-- The mutatee runs, or is written to a file. -/
def Action.releases : Action → Bool
  | .continueExecution => true
  | .writeFile _ => true
  | _ => false

def Action.snippet? : Action → Option Snippet
  | .insertSnippet s => some s
  | _ => none

/-- The probe calls put in. -/
def snippetsOf (acts : List Action) : List Snippet := acts.filterMap Action.snippet?

/-- The init function has been called in the process, before any probe was in it; or its call is in
the object of the binary, if that has a function for it. -/
def Initialised (env : DyninstEnv) (t : ProfTest) (args : InitArgs) (acts : List Action) : Prop :=
  match t.mode with
  | .proc => env.oneTimeCode args = 0 ∧
      ∃ pre post, acts = pre ++ .oneTimeCode args :: post ∧ snippetsOf pre = []
  | .edit => (∃ func, .insertInitCallback func args ∈ acts) ↔
      ∃ f ∈ env.initFuncs, f.objName = t.targetElf

/-- The function `f` is where the exit call belongs. -/
def IsExit (env : DyninstEnv) (t : ProfTest) (f : CallbackFunc) : Prop :=
  match t.mode with
  | .proc => some f.module = env.mainmod
  | .edit => f.objName = t.targetElf

/-- Everything is in place. -/
structure Prepared (env : DyninstEnv) (t : ProfTest) (acts : List Action) : Prop where
  found : (findTargets env false t.count).1 = true
  initialised :
    Initialised env t (buildInitArgs t.opts (findTargets env false t.count).2.1) acts
  probes : snippetsOf acts = ((findTargets env false t.count).2.1.targetFuncs.filter
    (Insertable env.insert ·)).flatMap probePair
  range : ∀ s ∈ snippetsOf acts,
    (buildInitArgs t.opts (findTargets env false t.count).2.1).min ≤ s.id ∧
      s.id ≤ (buildInitArgs t.opts (findTargets env false t.count).2.1).max
  exit : (∃ func, .insertFiniCallback func ∈ acts) ↔ ∃ f ∈ env.finiFuncs, IsExit env t f
  threads : .wrapPthreadCreate ∈ acts ↔ findTIDOffset env.image ≠ uintMax

/-! ## Ranges -/

theorem rangeStep_le (range : Nat × Nat) (t : TargetFunc) :
    (rangeStep range t).1 ≤ range.1 ∧ range.2 ≤ (rangeStep range t).2 := by
  unfold rangeStep
  split
  · exact ⟨Nat.le_refl _, Nat.le_refl _⟩
  · constructor
    · dsimp only
      split <;> omega
    · dsimp only
      split <;> omega

theorem foldl_rangeStep_le (targets : List TargetFunc) (range : Nat × Nat) :
    (targets.foldl rangeStep range).1 ≤ range.1 ∧ range.2 ≤ (targets.foldl rangeStep range).2 := by
  induction targets generalizing range with
  | nil => exact ⟨Nat.le_refl _, Nat.le_refl _⟩
  | cons t targets ih =>
    obtain ⟨hmin, hmax⟩ := ih (rangeStep range t)
    obtain ⟨hmin', hmax'⟩ := rangeStep_le range t
    exact ⟨hmin.trans hmin', hmax'.trans hmax⟩

/-- The numbers are in the range. -/
theorem calculateRange_bounds {targets : List TargetFunc} {t : TargetFunc} (ht : t ∈ targets)
    (hi : t.index ≠ uintMax) :
    (calculateRange targets).1 ≤ t.index ∧ t.index ≤ (calculateRange targets).2 := by
  obtain ⟨pre, post, rfl⟩ := List.append_of_mem ht
  rw [calculateRange, List.foldl_append, List.foldl_cons]
  obtain ⟨hmin, hmax⟩ :=
    foldl_rangeStep_le post (rangeStep (pre.foldl rangeStep (uintMax, 0)) t)
  have hstep : (rangeStep (pre.foldl rangeStep (uintMax, 0)) t).1 ≤ t.index ∧
      t.index ≤ (rangeStep (pre.foldl rangeStep (uintMax, 0)) t).2 := by
    rw [rangeStep, if_neg hi]
    constructor
    · dsimp only
      split <;> omega
    · dsimp only
      split <;> omega
  exact ⟨hmin.trans hstep.1, hstep.2.trans hmax⟩

/-! ## The steps -/

@[simp] theorem snippetsOf_append (acts acts' : List Action) :
    snippetsOf (acts ++ acts') = snippetsOf acts ++ snippetsOf acts' := List.filterMap_append

theorem snippetsOf_map_insert (ss : List Snippet) : snippetsOf (ss.map .insertSnippet) = ss := by
  rw [snippetsOf, List.filterMap_map]
  exact List.filterMap_some

section

variable (env : DyninstEnv)

theorem loadFunctions_ok {c : CountUtil} (h : (loadFunctions env c).ret = some true) :
    loadFunctions env c = ⟨some true, c, [.loadLibrary libcnt]⟩ := by
  unfold loadFunctions at h ⊢
  dsimp only at h ⊢
  split_ifs at h ⊢
  all_goals first | rfl | cases h

/-- What the loop over the functions did. -/
theorem insertCallback_eq (skip : CallbackFunc → Bool) (funcs : List CallbackFunc) (c : CountUtil) :
    insertCallback skip funcs c =
      match funcs.find? fun f => !skip f with
      | none => (true, c)
      | some f =>
        if f.inserts then (true, addTargetFunc c f.func uintMax f.objName false)
        else (false, c) := by
  induction funcs with
  | nil => rfl
  | cons f funcs ih =>
    rw [insertCallback, List.find?_cons]
    cases hs : skip f with
    | true => simpa using ih
    | false => cases hi : f.inserts <;> simp [hi]

theorem insertCallback_targets (skip : CallbackFunc → Bool) (funcs : List CallbackFunc)
    (c : CountUtil) : (insertCallback skip funcs c).2.targetFuncs = c.targetFuncs ++
      (callbackFunc skip funcs).toList.map fun f => ⟨f.func, uintMax, f.objName, false⟩ := by
  rw [insertCallback_eq, callbackFunc]
  cases funcs.find? fun f => !skip f with
  | none => simp
  | some f => cases hi : f.inserts <;> simp [hi, addTargetFunc, Option.filter]

/-- The call is put in when there is a function for it. -/
theorem isSome_callbackFunc {skip : CallbackFunc → Bool} {funcs : List CallbackFunc}
    {c : CountUtil} (h : (insertCallback skip funcs c).1 = true) :
    (callbackFunc skip funcs).isSome ↔ ∃ f ∈ funcs, skip f = false := by
  rw [insertCallback_eq] at h
  rw [callbackFunc]
  cases hf : funcs.find? fun f => !skip f with
  | none =>
    have hall := List.find?_eq_none.1 hf
    simp only [Option.filter_none, Option.isSome_none, Bool.false_eq_true, false_iff]
    rintro ⟨f, hmem, hs⟩
    exact hall f hmem (by simp [hs])
  | some f =>
    rw [hf] at h
    have hi : f.inserts = true := by
      by_contra hi
      simp [hi] at h
    have hmem := List.mem_of_find?_eq_some hf
    have hs := List.find?_some hf
    simp only [Option.filter_some_pos hi, Option.isSome_some, true_iff]
    exact ⟨f, hmem, by simpa using hs⟩

theorem countStep_ok {c : CountUtil} (h : (countStep env c).ret = some true) :
    (countStep env c).state = c ∧ snippetsOf (countStep env c).acts =
      (c.targetFuncs.filter (Insertable env.insert ·)).flatMap probePair := by
  refine ⟨rfl, ?_⟩
  rw [countStep, snippetsOf_map_insert]
  exact (insertCount_snippets env.insert c.targetFuncs).2 (Option.some.inj h)

/-- The calls of the init and exit functions are no probes. -/
theorem snippetsOf_eq_nil {acts : List Action} (h : ∀ a ∈ acts, a.snippet? = none) :
    snippetsOf acts = [] := List.filterMap_eq_nil_iff.2 h

theorem snippetsOf_initStep (mode : Mode) (targetElf : CStr) (opts : CountOpts) (c : CountUtil) :
    snippetsOf (initStep env mode targetElf opts c).acts = [] := by
  refine snippetsOf_eq_nil fun a ha => ?_
  cases mode with
  | proc =>
    rw [List.mem_singleton.1 ha]
    rfl
  | edit =>
    obtain ⟨f, -, rfl⟩ := List.mem_map.1 ha
    rfl

theorem snippetsOf_exitStep (mode : Mode) (targetElf : CStr) (c : CountUtil) :
    snippetsOf (exitStep env mode targetElf c).acts = [] := by
  refine snippetsOf_eq_nil fun a ha => ?_
  obtain ⟨f, -, rfl⟩ := List.mem_map.1 ha
  rfl

theorem snippetsOf_pthreadStep (c : CountUtil) : snippetsOf (pthreadStep env c).acts = [] := by
  refine snippetsOf_eq_nil fun a ha => ?_
  rcases List.mem_append.1 ha with ha | ha
  · obtain ⟨n, -, rfl⟩ := List.mem_map.1 ha
    rfl
  · split at ha
    · rw [List.mem_singleton.1 ha]
      rfl
    · cases ha

/-- The init function adds no target with a number. -/
theorem initStep_insertable (mode : Mode) (targetElf : CStr) (opts : CountOpts) (c : CountUtil) :
    (initStep env mode targetElf opts c).state.targetFuncs.filter (Insertable env.insert ·) =
      c.targetFuncs.filter (Insertable env.insert ·) := by
  cases mode with
  | proc => rfl
  | edit =>
    change (insertInit .edit _ targetElf env.initFuncs c).2.targetFuncs.filter _ = _
    unfold insertInit
    dsimp only
    split
    · rfl
    · rw [insertCallback_targets, List.filter_append]
      refine (congrArg _ (List.filter_eq_nil_iff.2 fun t ht => ?_)).trans (List.append_nil _)
      obtain ⟨f, -, rfl⟩ := List.mem_map.1 ht
      simp [Insertable]

theorem initStep_callback {targetElf : CStr} {opts : CountOpts} {c : CountUtil}
    (h : (initStep env .edit targetElf opts c).ret = some true) :
    (∃ func, .insertInitCallback func (buildInitArgs opts c) ∈
        (initStep env .edit targetElf opts c).acts) ↔
      ∃ f ∈ env.initFuncs, f.objName = targetElf := by
  have hloop : (insertCallback (·.objName != targetElf) env.initFuncs c).1 = true := by
    have hr : (insertInit .edit (env.oneTimeCode (buildInitArgs opts c)) targetElf env.initFuncs
        c).1 = true := Option.some.inj h
    unfold insertInit at hr
    dsimp only at hr
    split at hr
    · cases hr
    · exact hr
  have hsome := isSome_callbackFunc hloop
  simp only [bne_eq_false_iff_eq] at hsome
  rw [← hsome, Option.isSome_iff_exists]
  constructor
  · rintro ⟨func, hmem⟩
    obtain ⟨f, hf, -⟩ := List.mem_map.1 hmem
    exact ⟨f, Option.mem_toList.1 hf⟩
  · rintro ⟨f, hf⟩
    exact ⟨f.func, List.mem_map.2 ⟨f, Option.mem_toList.2 hf, rfl⟩⟩

theorem exitStep_callback {t : ProfTest} {c : CountUtil}
    (h : (exitStep env t.mode t.targetElf c).ret = some true) :
    (∃ func, .insertFiniCallback func ∈ (exitStep env t.mode t.targetElf c).acts) ↔
      ∃ f ∈ env.finiFuncs, IsExit env t f := by
  have hr : (insertExit t.mode env.mainmod t.targetElf env.finiFuncs c).1 = true :=
    Option.some.inj h
  have hmem : ∀ skip : CallbackFunc → Bool,
      (∃ func, Action.insertFiniCallback func ∈ (callbackFunc skip env.finiFuncs).toList.map
        fun f => Action.insertFiniCallback f.func) ↔ (callbackFunc skip env.finiFuncs).isSome := by
    intro skip
    rw [Option.isSome_iff_exists]
    constructor
    · rintro ⟨func, hf⟩
      obtain ⟨f, hf, -⟩ := List.mem_map.1 hf
      exact ⟨f, Option.mem_toList.1 hf⟩
    · rintro ⟨f, hf⟩
      exact ⟨f.func, List.mem_map.2 ⟨f, Option.mem_toList.2 hf, rfl⟩⟩
  unfold exitStep IsExit
  dsimp only
  rw [hmem]
  cases hmode : t.mode with
  | proc =>
    rw [hmode] at hr
    cases hm : env.mainmod with
    | none =>
      rw [hm] at hr
      cases hr
    | some m =>
      rw [hm] at hr
      have hskip : (fun f : CallbackFunc => some f.module != some m) = (·.module != m) := by
        funext f
        simp [bne]
      dsimp only
      rw [hskip, isSome_callbackFunc hr]
      simp
  | edit =>
    rw [hmode] at hr
    rw [isSome_callbackFunc hr]
    simp

theorem pthreadStep_wrap {c : CountUtil} (h : (pthreadStep env c).ret = some true) :
    .wrapPthreadCreate ∈ (pthreadStep env c).acts ↔ findTIDOffset env.image ≠ uintMax := by
  have hr : (wrapPthreadFunc env.image env.pthread).ret = true := Option.some.inj h
  have hmem : .wrapPthreadCreate ∈ (pthreadStep env c).acts ↔
      (wrapPthreadFunc env.image env.pthread).wrapped = true := by
    simp [pthreadStep]
  rw [hmem]
  unfold wrapPthreadFunc at hr ⊢
  dsimp only at hr ⊢
  split_ifs at hr ⊢ with h1 h2 h3
  · simp [h1]
  · simp [h1]

/-- All steps have been taken: their log. -/
theorem steps_ok {t : ProfTest} {c : CountUtil}
    (h : (runSteps (t.steps env) c).ret = some true) :
    let i := initStep env t.mode t.targetElf t.opts c
    let e := exitStep env t.mode t.targetElf i.state
    i.ret = some true ∧ (countStep env i.state).ret = some true ∧ e.ret = some true ∧
      (pthreadStep env e.state).ret = some true ∧
      (runSteps (t.steps env) c).acts = .loadLibrary libcnt :: (i.acts ++
        ((countStep env i.state).acts ++ (e.acts ++ (pthreadStep env e.state).acts))) := by
  intro i e
  have hall := h
  unfold ProfTest.steps at hall ⊢
  rw [runSteps_cons_eq_true] at hall
  obtain ⟨hload, hall⟩ := hall
  rw [runSteps_cons_ok hload]
  rw [loadFunctions_ok env hload] at hall ⊢
  rw [runSteps_cons_eq_true] at hall
  obtain ⟨hinit, hall⟩ := hall
  rw [runSteps_cons_ok hinit]
  rw [runSteps_cons_eq_true] at hall
  obtain ⟨hcount, hall⟩ := hall
  rw [runSteps_cons_ok hcount]
  rw [(countStep_ok env hcount).1] at hall ⊢
  rw [runSteps_cons_eq_true] at hall
  obtain ⟨hexit, hall⟩ := hall
  rw [runSteps_cons_ok hexit]
  rw [runSteps_cons_eq_true] at hall
  obtain ⟨hpthread, -⟩ := hall
  rw [runSteps_cons_ok hpthread]
  refine ⟨hinit, hcount, hexit, hpthread, ?_⟩
  simp [runSteps, i, e]

theorem fini_notMem_initStep (func : FuncRef) (mode : Mode) (targetElf : CStr) (opts : CountOpts)
    (c : CountUtil) : .insertFiniCallback func ∉ (initStep env mode targetElf opts c).acts := by
  cases mode <;> simp [initStep]

theorem wrap_notMem_initStep (mode : Mode) (targetElf : CStr) (opts : CountOpts) (c : CountUtil) :
    .wrapPthreadCreate ∉ (initStep env mode targetElf opts c).acts := by
  cases mode <;> simp [initStep]

/-- After the steps everything is in place. -/
theorem prepared_of_steps {t : ProfTest} (hfound : (findTargets env false t.count).1 = true)
    (h : (runSteps (t.steps env) (findTargets env false t.count).2.1).ret = some true) :
    Prepared env t
      (t.create :: (runSteps (t.steps env) (findTargets env false t.count).2.1).acts) := by
  obtain ⟨hinit, hcount, hexit, hpthread, hacts⟩ := steps_ok env h
  have hcreate : snippetsOf [t.create] = [] ∧ (∀ f, t.create ≠ .insertFiniCallback f) ∧
      t.create ≠ .wrapPthreadCreate ∧ ∀ f args, t.create ≠ .insertInitCallback f args := by
    unfold ProfTest.create
    cases t.mode <;> simp [snippetsOf, Action.snippet?]
  obtain ⟨hnone, hfini, hwrap, hcall⟩ := hcreate
  have hprobes : snippetsOf
      (t.create :: (runSteps (t.steps env) (findTargets env false t.count).2.1).acts) =
        ((findTargets env false t.count).2.1.targetFuncs.filter
          (Insertable env.insert ·)).flatMap probePair := by
    rw [hacts, ← List.singleton_append, ← List.singleton_append (l := _ ++ _)]
    simp only [snippetsOf_append, hnone, snippetsOf_initStep, snippetsOf_exitStep,
      snippetsOf_pthreadStep, (countStep_ok env hcount).2, initStep_insertable, List.nil_append,
      List.append_nil]
    rfl
  refine ⟨hfound, ?_, hprobes, ?_, ?_, ?_⟩
  · unfold Initialised
    rw [hacts]
    cases hmode : t.mode with
    | proc =>
      rw [hmode] at hinit
      refine ⟨?_, [t.create, .loadLibrary libcnt], _, rfl, ?_⟩
      · exact eq_of_beq (Option.some.inj hinit)
      · rw [← List.singleton_append, snippetsOf_append, hnone]
        rfl
    | edit =>
      rw [hmode] at hinit
      rw [← initStep_callback env hinit]
      simp [countStep, exitStep, pthreadStep, (hcall _ _).symm]
  · intro s hs
    rw [hprobes, List.mem_flatMap] at hs
    obtain ⟨tf, htf, hs⟩ := hs
    obtain ⟨hmem, hins⟩ := List.mem_filter.1 htf
    have hid : s.id = tf.index := by
      rcases List.mem_pair.1 hs with rfl | rfl <;> rfl
    rw [hid]
    exact calculateRange_bounds hmem (of_decide_eq_true hins).2.1
  · rw [hacts, ← exitStep_callback env hexit]
    simp [fini_notMem_initStep, (hfini _).symm, countStep, pthreadStep]
  · rw [hacts, ← pthreadStep_wrap env hpthread]
    simp [wrap_notMem_initStep, hwrap.symm, countStep, exitStep]

/-! ## Runs -/

theorem waitLoop_acts : ∀ (fuel n : Nat), ∀ a ∈ (waitLoop env fuel n).2, a = .waitForStatusChange
  | 0, _, a, ha => (by cases ha)
  | fuel + 1, n, a, ha => by
    unfold waitLoop at ha
    split at ha
    · cases ha
    · rcases List.mem_cons.1 ha with rfl | ha
      · rfl
      · exact waitLoop_acts fuel (n + 1) a ha

theorem waitLoop_ret : ∀ fuel n : Nat, (waitLoop env fuel n).1 ≠ some false
  | 0, _ => (by simp [waitLoop])
  | fuel + 1, n => by
    unfold waitLoop
    split
    · simp
    · exact waitLoop_ret fuel (n + 1)

theorem steps_keep (t : ProfTest) :
    ∀ f ∈ t.steps env, ∀ c, ∀ a ∈ (f c).acts, ¬ a.releases = true := by
  intro f hf c a ha
  simp only [ProfTest.steps, List.mem_cons, List.not_mem_nil, or_false] at hf
  rcases hf with rfl | rfl | rfl | rfl | rfl
  · have hload : ∀ b ∈ (loadFunctions env c).acts, b = .loadLibrary libcnt := by
      unfold loadFunctions
      dsimp only
      split_ifs <;> simp
    rw [hload a ha]
    simp [Action.releases]
  · cases hmode : t.mode with
    | proc =>
      rw [hmode] at ha
      rw [List.mem_singleton.1 ha]
      simp [Action.releases]
    | edit =>
      rw [hmode] at ha
      obtain ⟨f, -, rfl⟩ := List.mem_map.1 ha
      simp [Action.releases]
  · obtain ⟨s, -, rfl⟩ := List.mem_map.1 ha
    simp [Action.releases]
  · obtain ⟨f, -, rfl⟩ := List.mem_map.1 ha
    simp [Action.releases]
  · rcases List.mem_append.1 ha with ha | ha
    · obtain ⟨n, -, rfl⟩ := List.mem_map.1 ha
      simp [Action.releases]
    · split at ha
      · rw [List.mem_singleton.1 ha]
        simp [Action.releases]
      · cases ha

/-- The end lets the mutatee loose with its first action, if it has any. -/
theorem finish_acts (t : ProfTest) (fuel : Nat) (c : CountUtil) :
    ((t.finish env fuel c).acts = [] ∧ (t.finish env fuel c).ret = some false) ∨
      ∃ a rest, (t.finish env fuel c).acts = a :: rest ∧ a.releases = true ∧
        (∀ b ∈ rest, b = .waitForStatusChange) ∧ (t.finish env fuel c).ret ≠ some false := by
  unfold ProfTest.finish
  cases t.mode with
  | proc => exact .inr ⟨_, _, rfl, rfl, waitLoop_acts env fuel 0, waitLoop_ret env fuel 0⟩
  | edit =>
    dsimp only
    split
    · exact .inl ⟨rfl, rfl⟩
    · exact .inr ⟨_, [], rfl, rfl, fun b hb => (by cases hb), by simp⟩

theorem create_keeps (t : ProfTest) : t.create.releases = false := by
  unfold ProfTest.create
  cases t.mode <;> rfl

/-- `init` fails, with nothing done but the mutatee made; or `process` is run. -/
theorem main_cases (t : ProfTest) (fuel : Nat) :
    ((t.main env fuel).1 = some 1 ∧ ∀ a ∈ (t.main env fuel).2, a.releases = false) ∨
      (findTargets env false t.count).1 = true ∧
        t.main env fuel = (((t.process env fuel (findTargets env false t.count).2.1).ret).map
          fun ok => if ok then 0 else 1,
          t.create :: (t.process env fuel (findTargets env false t.count).2.1).acts) := by
  unfold ProfTest.main ProfTest.init
  cases env.create with
  | false => exact .inl ⟨rfl, fun a ha => (by cases ha)⟩
  | true =>
    simp only [Bool.not_true, Bool.false_eq_true, ↓reduceIte]
    by_cases hfound : (findTargets env false t.count).1 = true
    · exact .inr ⟨hfound, by simp [hfound]⟩
    · rw [if_pos (by simpa using hfound)]
      refine .inl ⟨rfl, fun a ha => ?_⟩
      rw [List.mem_singleton.1 ha]
      exact create_keeps t

theorem steps_end (t : ProfTest) : ∀ f ∈ t.steps env, ∀ c, (f c).ret ≠ none := by
  intro f hf c
  simp only [ProfTest.steps, List.mem_cons, List.not_mem_nil, or_false] at hf
  rcases hf with rfl | rfl | rfl | rfl | rfl
  · unfold loadFunctions
    dsimp only
    split_ifs <;> simp
  · unfold initStep
    cases t.mode <;> simp
  · simp [countStep]
  · simp [exitStep]
  · simp [pthreadStep]

/-- `process` fails exactly when it does not let the mutatee loose. -/
theorem process_cases (t : ProfTest) (fuel : Nat) (c : CountUtil) :
    ((t.process env fuel c).ret = some false ∧
        ∀ a ∈ (t.process env fuel c).acts, a.releases = false) ∨
      ((t.process env fuel c).ret ≠ some false ∧
        ∃ a ∈ (t.process env fuel c).acts, a.releases = true) := by
  have hbefore : ∀ a ∈ (runSteps (t.steps env) c).acts, ¬ a.releases = true :=
    runSteps_acts (steps_keep env t)
  unfold ProfTest.process
  rw [runSteps_append]
  split
  · rw [runSteps_singleton]
    rcases finish_acts env t fuel (runSteps (t.steps env) c).state with
      ⟨hnil, hret⟩ | ⟨a, rest, hrest, ha, -, hret⟩
    · refine .inl ⟨hret, fun a ha => ?_⟩
      rw [hnil, List.append_nil] at ha
      simpa using hbefore a ha
    · exact .inr ⟨hret, a, by simp [hrest], ha⟩
  · rename_i hstop
    refine .inl ⟨?_, fun a ha => by simpa using hbefore a ha⟩
    have hend := runSteps_ret (steps_end env t) (s := c)
    rcases hr : (runSteps (t.steps env) c).ret with _ | _ | _
    · exact absurd hr hend
    · rfl
    · exact absurd hr hstop

end

/-! ## A process -/

/-- Everything works, and the process ends after one status change. -/
def DyninstEnv.granting : DyninstEnv where
  create := true
  image := ⟨[mainObj], fun _ => none⟩
  findFunction := findByName
  skip := []
  load := fun _ => .granting
  fs := mutateeFs
  loadLibrary := fun _ => true
  probeFunc := fun _ => true
  initFuncs := [⟨⟨0, ⟨"_init".toList, 0, false, 0⟩⟩, 0, "prog".toList, true⟩]
  finiFuncs := [⟨⟨0, ⟨"_fini".toList, 0, false, 0⟩⟩, 0, "prog".toList, true⟩]
  mainmod := some 0
  oneTimeCode := fun _ => 0
  insert := .granting
  pthread := ⟨true, true, true, true, true⟩
  continues := true
  terminated := fun n => decide (1 ≤ n)
  stopped := fun _ => true
  writeFile := fun _ => true

/-- `lprofile prof /a/prog`. -/
def progTest : ProfTest := ⟨.proc, "/a/prog".toList, [], ⟨[], [], [], 0⟩, .new patternAll⟩

/-- With an `_init` in another object only, `lprofile prof -w /a/out /a/prog` writes the file with
its probes and without a call of the init function. -/
example :
    let env : DyninstEnv := { DyninstEnv.granting with
      initFuncs := [⟨⟨1, ⟨"_init".toList, 0, false, 0⟩⟩, 1, "libbar.so".toList, true⟩] }
    let r := ({ progTest with mode := .edit, output := "/a/out".toList } : ProfTest).main env 2
    r.1 = some 0 ∧ .writeFile "/a/out".toList ∈ r.2 ∧ (snippetsOf r.2).length = 4 ∧
      r.2.all fun a => match a with
        | .insertInitCallback _ _ => false
        | _ => true := by decide +kernel

end Lprofile.Utils
