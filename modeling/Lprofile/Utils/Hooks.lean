import Lprofile.Utils.Libraries
import Lprofile.Utils.Redirect
import Lprofile.Utils.Session

/-!
# The replace and wrap commands

`ReplaceTest` and `WrapTest` are the same program but for `handleFunction`: the mutatee
is created or opened, the targets are found with their wrappers compiled, the libraries
are loaded one name after the other, `handleFunction` is called for each target of a
name, and the mutatee is started or written. What `handleFunction` cannot do is logged,
and the session goes on.

A library is looked up by the name of the object, and a wrapper in it by its number. Both
commands therefore take, for a target, the wrapper with its number in the library of the
last object of that name (`replace_own_wrapper_iff`). `WrapTest` also asks for the symbol of
the hook, which the wrappers declare and do not use: a symbol that nothing uses is in
no library, so `wrap` wraps nothing (`wrap_wraps_nothing`).

Of Dyninst, `library` is what it reads from the file of a library: the functions with
the procedures their wrappers were made for, and all symbols, the undefined ones included.
-/

namespace Lprofile.Utils

open Lprofile.Lib Lprofile.Probe

structure WrapLib where
  functions : List (CStr × BPatchFunction)
  symbols : List CStr
  deriving DecidableEq

/-- What is done to the mutatee; `redirect` are the call points changed for one target. -/
inductive HookAct where
  | session (a : Action)
  | redirect (func : FuncRef) (wrapper : BPatchFunction) (patched : Patched)
  | wrapFunction (func : FuncRef) (wrapper : BPatchFunction) (hook : CStr)
  deriving DecidableEq

structure HookEnv extends DyninstEnv where
  library : CStr → Option WrapLib
  calls : TargetFunc → ReplaceEnv

/-- The members of `ReplaceTest` and `WrapTest` after `parseArgs`. -/
structure HookTest where
  mode : Mode
  mutteeBin : CStr
  output : CStr
  pattern : CStr

/-- `CountUtil::findFunction` on a library. -/
def WrapLib.findFunction (lib : WrapLib) (name : CStr) : Option BPatchFunction :=
  (lib.functions.find? fun f => decide (f.1 = name)).map (·.2)

section

variable (env : HookEnv)

/-- `ReplaceTest::handleFunction`. -/
def replaceFunction (lib : WrapLib) (t : TargetFunc) : List HookAct :=
  match lib.findFunction (getWrapSymbolName t.index .wrap) with
  | none => []
  | some w => [.redirect t.func w (handleFunction { env.calls t with found := true })]

def findHookSymbol (lib : WrapLib) (index : Nat) : Option CStr :=
  lib.symbols.find? fun s => decide (s = getWrapSymbolName index .hook)

/-- `WrapTest::handleFunction`. -/
def wrapHook (lib : WrapLib) (t : TargetFunc) : List HookAct :=
  match lib.findFunction (getWrapSymbolName t.index .wrap) with
  | none => []
  | some w =>
    match findHookSymbol lib t.index with
    | none => []
    | some sym => [.wrapFunction t.func w sym]

/-- The library `handleElf` loads. -/
def loadWrapLib (fs : Fs) (elf : CStr) : Option WrapLib :=
  (fs.files (getWrapFilePath elf .lib)).bind fun file => env.library file.text

variable (handle : WrapLib → TargetFunc → List HookAct)

/-- `handleElf`, with `handle` for `handleFunction`. -/
def hookElf (fs : Fs) (funcs : List TargetFunc) (fuel : Nat) (elf : CStr) (targets : List Nat) :
    Option (List HookAct) :=
  match loadWrapLib env fs elf with
  | none => some []
  | some lib => (handleLoop funcs targets fuel 0).map fun visited =>
      .session (.loadLibrary (getWrapFilePath elf .lib)) ::
        visited.flatMap (·.elim [] (handle lib))

def hookElfs (fs : Fs) (funcs : List TargetFunc) (fuel : Nat) :
    List (CStr × List Nat) → Option (List HookAct)
  | [] => some []
  | (elf, targets) :: elfs => do
    let acts ← hookElf env handle fs funcs fuel elf targets
    let rest ← hookElfs fs funcs fuel elfs
    some (acts ++ rest)

/-- The end of `process`. -/
def HookTest.finish (t : HookTest) (fuel : Nat) : Option Bool × List Action :=
  match t.mode with
  | .proc =>
    let r := waitLoop env.toDyninstEnv fuel 0
    (r.1, .continueExecution :: r.2)
  | .edit =>
    if !env.writeFile t.output then (some false, []) else (some true, [.writeFile t.output])

def HookTest.process (t : HookTest) (fuel : Nat) (c : CountUtil) (fs : Fs) :
    Option Bool × List HookAct :=
  if !env.loadLibrary libcnt then (some false, [])
  else
    match hookElfs env handle fs c.targetFuncs fuel (elfEntries c) with
    | none => (none, [.session (.loadLibrary libcnt)])
    | some acts =>
      let r := t.finish env fuel
      (r.1, .session (.loadLibrary libcnt) :: acts ++ r.2.map .session)

def HookTest.create (t : HookTest) : Action :=
  match t.mode with
  | .proc => .processCreate t.mutteeBin
  | .edit => .openBinary t.mutteeBin

/-- `main` after `parseArgs`. -/
def HookTest.main (t : HookTest) (fuel : Nat) : Option Nat × List HookAct :=
  if !env.create then (some 1, [])
  else
    let r := findTargets env.toDyninstEnv true (.new t.pattern)
    if !r.1 then (some 1, [.session t.create])
    else
      let p := t.process env handle fuel r.2.1 r.2.2
      (p.1.map fun ok => if ok then 0 else 1, .session t.create :: p.2)

end

/-! ## Symbols -/

/-- The symbols a statement of a wrapper uses. -/
def WrapStmt.symbols : WrapStmt → List CStr
  | .call .pre => ["lprobe_func_entry".toList]
  | .call .print => ["fprintf".toList, "stdout".toList]
  | .call .post => ["lprobe_func_exit".toList]
  | _ => []

/-- The symbols that the wrappers define or use. -/
def sourceSymbols (kept : List BPatchFunction) : List CStr :=
  (kept.mapIdx fun i p => getWrapSymbolName i .wrap ::
    (wrapperStmts p).flatMap WrapStmt.symbols).flatten

/-- The wrappers of a source, in order. -/
def wrapperFunctions (kept : List BPatchFunction) : List (CStr × BPatchFunction) :=
  kept.mapIdx fun i p => (getWrapSymbolName i .wrap, p)

/-- The objects are as Dyninst gives them, and `gcc` makes of the wrapper source of an object a
library with the functions of its blocks, and with the symbols that these define or use and no
other of ours. -/
structure Built (env : HookEnv) : Prop where
  ids : (env.image.objects.map (·.id)).Nodup
  names : ∀ o ∈ getUserObjs env.image.objects, o.name = baseName o.pathName
  plain : ∀ o ∈ getUserObjs env.image.objects, ¬ funcmapPrefix <+: o.name
  few : ∀ o ∈ getUserObjs env.image.objects, o.functions.length < 2 ^ 32
  library : ∀ o ∈ getUserObjs env.image.objects, ∀ text,
    (env.load o).gcc (sourceText (keptProcedures env.skip [] o.functions)) = some text →
    ∃ lib, env.library text = some lib ∧
      lib.functions = wrapperFunctions (keptProcedures env.skip [] o.functions) ∧
      ∀ i, getWrapSymbolName i .hook ∈ lib.symbols →
        getWrapSymbolName i .hook ∈ sourceSymbols (keptProcedures env.skip [] o.functions)

theorem head_of_mem_symbols {st : WrapStmt} {s : CStr} (h : s ∈ st.symbols) :
    s.head? ≠ some 'L' := by
  have hall : ∀ st : WrapStmt, ∀ s ∈ st.symbols, s.head? ≠ some 'L' := by
    intro st
    rcases st with _ | c | _ | _
    · simp [WrapStmt.symbols]
    · cases c <;> simp [WrapStmt.symbols]
    · simp [WrapStmt.symbols]
    · simp [WrapStmt.symbols]
  exact hall st s h

/-- No wrapper uses a hook. -/
theorem hook_notMem_sourceSymbols (kept : List BPatchFunction) (i : Nat) :
    getWrapSymbolName i .hook ∉ sourceSymbols kept := by
  intro h
  obtain ⟨l, hl, hmem⟩ := List.mem_flatten.1 h
  obtain ⟨j, hj, rfl⟩ := List.mem_mapIdx.1 hl
  rcases List.mem_cons.1 hmem with heq | hmem
  · cases (getWrapSymbolName_injective heq).2
  · obtain ⟨st, -, hst⟩ := List.mem_flatMap.1 hmem
    have hhead : (getWrapSymbolName i .hook).head? = some 'L' := by
      have hfirst : "LPROFILE_HOOK_func".toList.head? = some 'L' := by decide
      unfold getWrapSymbolName
      dsimp only
      rw [List.head?_append, hfirst, Option.some_or]
    exact head_of_mem_symbols hst hhead

/-- The wrapper with a number is the one at that place. -/
theorem findFunction_wrapper {lib : WrapLib} {kept : List BPatchFunction}
    (h : lib.functions = wrapperFunctions kept) (index : Nat) :
    lib.findFunction (getWrapSymbolName index .wrap) = kept[index]? := by
  rw [← findWrapper_eq, findWrapper, WrapLib.findFunction, h, wrapperFunctions,
    List.mapIdx_eq_zipIdx_map, List.find?_map, Option.map_map]
  rfl

/-! ## The loop over the names -/

theorem mem_handleLoop {funcs : List TargetFunc} {targets : List Nat} :
    ∀ {fuel i : Nat} {visited : List (Option TargetFunc)},
      handleLoop funcs targets fuel i = some visited → ∀ x ∈ visited, ∃ k ∈ targets, x = funcs[k]?
  | 0, _, _, h, _, _ => by cases h
  | fuel + 1, i, visited, h, x, hx => by
    rw [handleLoop] at h
    split at h
    · cases h
      cases hx
    · rename_i k hk
      obtain ⟨rest, hrest, rfl⟩ := Option.map_eq_some_iff.1 h
      rcases List.mem_cons.1 hx with rfl | hx
      · exact ⟨k, List.mem_of_getElem? hk, rfl⟩
      · exact mem_handleLoop hrest x hx

section

variable {env : HookEnv} {handle : WrapLib → TargetFunc → List HookAct} {fs : Fs}
  {funcs : List TargetFunc}

/-- An act is the loading of a library, or one of `handleFunction` for a target of its name. -/
theorem mem_hookElfs {fuel : Nat} {a : HookAct} : ∀ {elfs : List (CStr × List Nat)}
    {acts : List HookAct}, hookElfs env handle fs funcs fuel elfs = some acts → a ∈ acts →
      (∃ b, a = .session b) ∨ ∃ e ∈ elfs, ∃ lib, loadWrapLib env fs e.1 = some lib ∧
        ∃ k ∈ e.2, ∃ t, funcs[k]? = some t ∧ a ∈ handle lib t
  | [], acts, h, ha => by
    cases h
    cases ha
  | (elf, targets) :: elfs, acts, h, ha => by
    obtain ⟨one, hone, h⟩ := Option.bind_eq_some_iff.1 h
    obtain ⟨rest, hrest, h⟩ := Option.bind_eq_some_iff.1 h
    cases h
    rcases List.mem_append.1 ha with ha | ha
    · unfold hookElf at hone
      split at hone
      · cases hone
        cases ha
      · rename_i lib hlib
        obtain ⟨visited, hvisited, rfl⟩ := Option.map_eq_some_iff.1 hone
        rcases List.mem_cons.1 ha with rfl | ha
        · exact .inl ⟨_, rfl⟩
        · obtain ⟨x, hx, ha⟩ := List.mem_flatMap.1 ha
          obtain ⟨k, hk, rfl⟩ := mem_handleLoop hvisited x hx
          rcases ht : funcs[k]? with _ | t
          · rw [ht] at ha
            cases ha
          · rw [ht] at ha
            exact .inr ⟨_, List.mem_cons_self, lib, hlib, k, hk, t, ht, ha⟩
    · rcases mem_hookElfs hrest ha with hs | ⟨e, he, hrest⟩
      · exact .inl hs
      · exact .inr ⟨e, List.mem_cons_of_mem _ he, hrest⟩

/-- Only what `handleFunction` does for the targets of the names matters. -/
theorem hookElfs_congr {handle' : WrapLib → TargetFunc → List HookAct} {fuel : Nat} :
    ∀ {elfs : List (CStr × List Nat)},
      (∀ e ∈ elfs, ∀ lib, loadWrapLib env fs e.1 = some lib → ∀ k ∈ e.2, ∀ t,
        funcs[k]? = some t → handle lib t = handle' lib t) →
      hookElfs env handle fs funcs fuel elfs = hookElfs env handle' fs funcs fuel elfs
  | [], _ => rfl
  | (elf, targets) :: elfs, h => by
    obtain ⟨hhead, htail⟩ := List.forall_mem_cons.1 h
    have hone : hookElf env handle fs funcs fuel elf targets =
        hookElf env handle' fs funcs fuel elf targets := by
      unfold hookElf
      rcases hlib : loadWrapLib env fs elf with _ | lib
      · rfl
      rcases hloop : handleLoop funcs targets fuel 0 with _ | visited
      · rfl
      simp only [Option.map_some, Option.some_inj, List.cons.injEq, true_and]
      refine List.flatMap_congr fun x hx => ?_
      obtain ⟨k, hk, rfl⟩ := mem_handleLoop hloop x hx
      rcases ht : funcs[k]? with _ | t
      · rfl
      · exact hhead lib hlib k hk t ht
    rw [hookElfs, hookElfs, hone, hookElfs_congr htail]

/-- The acts for one target. -/
def targetActs (env : HookEnv) (handle : WrapLib → TargetFunc → List HookAct) (fs : Fs)
    (t : TargetFunc) : List HookAct :=
  (loadWrapLib env fs t.elf).elim [] (handle · t)

def HookAct.pair? : HookAct → Option (FuncRef × BPatchFunction)
  | .redirect func w _ => some (func, w)
  | _ => none

/-- The targets and the wrappers their calls go to. -/
def pairsOf (acts : List HookAct) : List (FuncRef × BPatchFunction) := acts.filterMap HookAct.pair?

theorem pairsOf_append (acts acts' : List HookAct) :
    pairsOf (acts ++ acts') = pairsOf acts ++ pairsOf acts' := List.filterMap_append

theorem pairsOf_flatMap {α : Type} (f : α → List HookAct) (l : List α) :
    pairsOf (l.flatMap f) = l.flatMap fun x => pairsOf (f x) := List.filterMap_flatMap ..

@[simp] theorem pairsOf_cons_session (a : Action) (acts : List HookAct) :
    pairsOf (.session a :: acts) = pairsOf acts := List.filterMap_cons_none rfl

theorem pairsOf_session (acts : List Action) : pairsOf (acts.map .session) = [] := by
  rw [pairsOf, List.filterMap_map]
  exact List.filterMap_eq_nil_iff.2 fun a _ => rfl

/-- `handleElf` for a list that its counter can count. -/
theorem hookElf_pairs {fuel : Nat} {elf : CStr} {targets : List Nat}
    (hplaces : ∀ k ∈ targets, ∀ t, funcs[k]? = some t → t.elf = elf)
    (hlen : targets.length < 2 ^ 32) (hfuel : targets.length < fuel) :
    ∃ acts, hookElf env handle fs funcs fuel elf targets = some acts ∧
      pairsOf acts = targets.flatMap fun k =>
        (funcs[k]?).elim [] fun t => pairsOf (targetActs env handle fs t) := by
  unfold hookElf
  rcases hlib : loadWrapLib env fs elf with _ | lib
  · refine ⟨[], rfl, (List.flatMap_eq_nil_iff.2 fun k hk => ?_).symm⟩
    rcases ht : funcs[k]? with _ | t
    · rfl
    · rw [Option.elim_some, targetActs, hplaces k hk t ht, hlib]
      rfl
  · rw [handleLoop_ends funcs hlen fuel 0 (Nat.zero_le _) hfuel, List.drop_zero]
    refine ⟨_, rfl, ?_⟩
    dsimp only
    rw [pairsOf_cons_session, pairsOf_flatMap, List.flatMap_map]
    refine List.flatMap_congr fun k hk => ?_
    rcases ht : funcs[k]? with _ | t
    · rfl
    · rw [Option.elim_some, Option.elim_some, targetActs, hplaces k hk t ht, hlib]
      rfl

theorem hookElfs_pairs {fuel : Nat} : ∀ {elfs : List (CStr × List Nat)},
    (∀ e ∈ elfs, ∀ k ∈ e.2, ∀ t, funcs[k]? = some t → t.elf = e.1) →
    (∀ e ∈ elfs, e.2.length < 2 ^ 32 ∧ e.2.length < fuel) →
    ∃ acts, hookElfs env handle fs funcs fuel elfs = some acts ∧
      pairsOf acts = (elfs.flatMap Prod.snd).flatMap fun k =>
        (funcs[k]?).elim [] fun t => pairsOf (targetActs env handle fs t)
  | [], _, _ => ⟨[], rfl, rfl⟩
  | (elf, targets) :: elfs, hplaces, hlen => by
    obtain ⟨hplaces, hplaces'⟩ := List.forall_mem_cons.1 hplaces
    obtain ⟨hlen, hlen'⟩ := List.forall_mem_cons.1 hlen
    obtain ⟨acts, hacts, hpairs⟩ := @hookElf_pairs env handle fs funcs _ _ _ hplaces hlen.1 hlen.2
    obtain ⟨rest, hrest, hpairs'⟩ := hookElfs_pairs hplaces' hlen'
    refine ⟨acts ++ rest, ?_, ?_⟩
    · rw [hookElfs, hacts, hrest]
      rfl
    · rw [pairsOf_append, hpairs, hpairs', List.flatMap_cons, List.flatMap_append]

end

/-! ## The libraries of a session -/

section

variable {env : HookEnv} {pattern : CStr}

/-- The targets found, and the files there are then. -/
theorem findTargets_eq (hfound : (findTargets env.toDyninstEnv true (.new pattern)).1 = true) :
    (loadTargets env.findFunction env.skip env.load true (getUserObjs env.image.objects)
        (.new pattern) env.fs).1 = true ∧
      (findTargets env.toDyninstEnv true (.new pattern)).2 =
        (loadTargets env.findFunction env.skip env.load true (getUserObjs env.image.objects)
          (.new pattern) env.fs).2 := by
  unfold findTargets getTargetFuncs at hfound ⊢
  dsimp only at hfound ⊢
  split at hfound
  · rename_i hno
    rw [hfound] at hno
    cases hno
  · rename_i hyes
    split at hfound
    · cases hfound
    · rename_i hne
      rw [if_neg hyes, if_neg hne]
      exact ⟨hfound, rfl⟩

/-- A target is a function of a user object, under its place there. -/
theorem exists_obj_of_target (h : Built env)
    (hfound : (findTargets env.toDyninstEnv true (.new pattern)).1 = true) {t : TargetFunc}
    (ht : t ∈ (findTargets env.toDyninstEnv true (.new pattern)).2.1.targetFuncs) :
    ∃ o ∈ getUserObjs env.image.objects, ∃ f, Targeted env.findFunction env.skip pattern o f ∧
      t.func = ⟨o.id, f⟩ ∧ t.elf = baseName o.pathName ∧
      t.index = position env.skip o f.name ∧ f.name ∈ keptFunctions env.skip o.functions := by
  obtain ⟨o, ho, f, hf, rfl⟩ := (mem_getTargetFuncs hfound).1 ht
  refine ⟨o, ho, f, hf, rfl, h.names o ho, ?_, hf.2.1⟩
  have hlt : position env.skip o f.name < (keptFunctions env.skip o.functions).length :=
    List.idxOf_lt_length_iff.2 hf.2.1
  have hle : (keptFunctions env.skip o.functions).length ≤ o.functions.length := by
    simpa [keptFunctions] using @length_insertAll_le _ _ env.skip [] (o.functions.map (·.name))
  exact Nat.mod_eq_of_lt (hlt.trans_le (hle.trans (h.few o ho).le))

/-- The library of a target is that of the owner of its name. -/
theorem loadWrapLib_owner (h : Built env)
    (hfound : (findTargets env.toDyninstEnv true (.new pattern)).1 = true) {t : TargetFunc}
    (ht : t ∈ (findTargets env.toDyninstEnv true (.new pattern)).2.1.targetFuncs) :
    ∃ o lib, owner env.skip (getUserObjs env.image.objects) t.elf = some o ∧
      loadWrapLib env (findTargets env.toDyninstEnv true (.new pattern)).2.2 t.elf = some lib ∧
      lib.functions = wrapperFunctions (keptProcedures env.skip [] o.functions) ∧
      ∀ i, getWrapSymbolName i .hook ∉ lib.symbols := by
  obtain ⟨o, ho, f, -, -, helf, -, hmem⟩ := exists_obj_of_target h hfound ht
  obtain ⟨o', howner⟩ := Option.isSome_iff_exists.1
    (isSome_owner ho (List.ne_nil_of_mem hmem) : (owner env.skip _ _).isSome)
  rw [← helf] at howner
  obtain ⟨hmem', -, -⟩ := mem_of_owner howner
  obtain ⟨hok, heq⟩ := findTargets_eq hfound
  have hplain : ∀ o ∈ getUserObjs env.image.objects, ¬ funcmapPrefix <+: baseName o.pathName := by
    intro o ho
    rw [← h.names o ho]
    exact h.plain o ho
  have hlib := loadTargets_lib hplain h.few hok t.elf
  rw [howner, ← heq] at hlib
  obtain ⟨text, file, hgcc, htext, hfile⟩ := hlib
  obtain ⟨lib, hread, hfuncs, hsyms⟩ := h.library o' hmem' text hgcc
  refine ⟨o', lib, howner, ?_, hfuncs, fun i hi => hook_notMem_sourceSymbols _ i (hsyms i hi)⟩
  rw [loadWrapLib, hfile, Option.bind_some, htext, hread]

/-- The wrapper for a target: the one with its number in the library of the owner. -/
def wrapperOf (env : HookEnv) (t : TargetFunc) : Option BPatchFunction :=
  (owner env.skip (getUserObjs env.image.objects) t.elf).bind fun o =>
    (keptProcedures env.skip [] o.functions)[t.index]?

theorem pairsOf_targetActs (h : Built env)
    (hfound : (findTargets env.toDyninstEnv true (.new pattern)).1 = true) {t : TargetFunc}
    (ht : t ∈ (findTargets env.toDyninstEnv true (.new pattern)).2.1.targetFuncs) :
    pairsOf (targetActs env (replaceFunction env)
      (findTargets env.toDyninstEnv true (.new pattern)).2.2 t) =
        (wrapperOf env t).toList.map (t.func, ·) := by
  obtain ⟨o, lib, howner, hlib, hfuncs, -⟩ := loadWrapLib_owner h hfound ht
  rw [targetActs, hlib, Option.elim_some, replaceFunction, findFunction_wrapper hfuncs, wrapperOf,
    howner, Option.bind_some]
  cases (keptProcedures env.skip [] o.functions)[t.index]? <;> rfl

end

/-- The session gets as far as its targets. -/
structure Reached (env : HookEnv) (pattern : CStr) : Prop where
  create : env.create = true
  found : (findTargets env.toDyninstEnv true (.new pattern)).1 = true
  libcnt : env.loadLibrary libcnt = true
  lists : ∀ elf, (placesOf (findTargets env.toDyninstEnv true (.new pattern)).2.1.targetFuncs
    elf).length < 2 ^ 32

theorem elfLists_findTargets (env : DyninstEnv) (isWrap : Bool) (pattern : CStr) :
    ElfLists (findTargets env isWrap (.new pattern)).2.1 := by
  obtain ⟨calls, hcalls⟩ := addsTargets_getTargetFuncs env.findFunction env.skip env.load isWrap
    env.image.objects (.new pattern) env.fs
  unfold findTargets
  rw [hcalls]
  exact addTargets_lists calls (elfLists_new pattern)

/-- The redirected calls of a session, target by target. -/
theorem replace_pairs {env : HookEnv} {t : HookTest} (h : Built env) (hr : Reached env t.pattern)
    {fuel : Nat}
    (hfuel : (findTargets env.toDyninstEnv true (.new t.pattern)).2.1.targetFuncs.length < fuel) :
    (pairsOf (t.main env (replaceFunction env) fuel).2).Perm
      ((findTargets env.toDyninstEnv true (.new t.pattern)).2.1.targetFuncs.flatMap fun tf =>
        (wrapperOf env tf).toList.map (tf.func, ·)) := by
  have hlists := elfLists_findTargets env.toDyninstEnv true t.pattern
  have hacts := fun tf htf => @pairsOf_targetActs env t.pattern h hr.found tf htf
  have hlen := hr.lists
  simp only [HookTest.main, HookTest.process, hr.create, hr.found, hr.libcnt, Bool.not_true,
    Bool.false_eq_true, ↓reduceIte]
  generalize (findTargets env.toDyninstEnv true (.new t.pattern)).2 = r at *
  obtain ⟨c, fs⟩ := r
  dsimp only at hlists hlen hacts hfuel ⊢
  have hentries := elfEntries_spec hlists
  have hplaces : ∀ e ∈ elfEntries c, e.2 = placesOf c.targetFuncs e.1 := fun e he =>
    (hlists.eq_some_iff.1 ((hentries.mem e.1 e.2).1 he)).2
  obtain ⟨acts, hrun, hpairs⟩ := @hookElfs_pairs env (replaceFunction env) fs c.targetFuncs fuel
    (elfEntries c) (fun e he k hk tf htf => by
      rw [hplaces e he] at hk
      obtain ⟨t', ht', helf⟩ := mem_placesOf.1 hk
      rw [htf] at ht'
      cases ht'
      exact helf) fun e he => by
      rw [hplaces e he]
      refine ⟨hlen e.1, lt_of_le_of_lt ?_ hfuel⟩
      rw [placesOf, List.length_findIdxs]
      exact List.countP_le_length
  rw [hrun]
  dsimp only
  have hlog : pairsOf (.session t.create :: (.session (.loadLibrary libcnt) :: acts ++
      ((t.finish env fuel).2).map .session)) = pairsOf acts := by
    rw [pairsOf_cons_session, pairsOf_append, pairsOf_cons_session, pairsOf_session,
      List.append_nil]
  rw [hlog, hpairs]
  have hperm := hentries.perm hlists fun _ => true
  rw [List.filter_eq_self.2 fun _ _ => rfl] at hperm
  refine (hperm.flatMap_right _).trans (.of_eq ?_)
  have hall := map_getElem?_findIdxs (fun _ => true) c.targetFuncs
  rw [List.filter_eq_self.2 fun _ _ => rfl] at hall
  calc (c.targetFuncs.findIdxs fun _ => true).flatMap (fun k =>
        (c.targetFuncs[k]?).elim [] fun tf =>
          pairsOf (targetActs env (replaceFunction env) fs tf))
      = ((c.targetFuncs.findIdxs fun _ => true).map (c.targetFuncs[·]?)).flatMap fun x =>
          x.elim [] fun tf => pairsOf (targetActs env (replaceFunction env) fs tf) := by
        rw [List.flatMap_map]
    _ = c.targetFuncs.flatMap fun tf => pairsOf (targetActs env (replaceFunction env) fs tf) := by
        rw [hall, List.flatMap_map]
        rfl
    _ = c.targetFuncs.flatMap fun tf => (wrapperOf env tf).toList.map (tf.func, ·) :=
        List.flatMap_congr fun tf htf => hacts tf htf

/-- The wrapper made for a function is at its place. -/
theorem keptProcedures_position {skip : List CStr} {o : BPatchObject} {n : CStr}
    (hn : n ∈ keptFunctions skip o.functions) :
    (keptProcedures skip [] o.functions)[position skip o n]? = firstNamed o.functions n := by
  have hnames : (keptProcedures skip [] o.functions).map (·.name) =
      keptFunctions skip o.functions := names_keptProcedures skip [] o.functions
  have hlt := List.idxOf_lt_length_iff.2 hn
  rw [← findWrapper_eq, findWrapper_of_map (firstNamed_keptProcedures skip o.functions)
    (by rw [hnames]; exact hlt)]
  simp only [hnames]
  exact congrArg (firstNamed o.functions) (List.getElem_idxOf hlt)

/-- **`replace` and its wrappers.** A session that gets to its targets redirects the calls of each
target once, to the wrapper with its number in the library of the last user object of its name. This
is the wrapper made for the target, for all targets, exactly if of each name the last object has at
the numbers of the targets the wrappers of the others. -/
theorem replace_own_wrapper_iff {env : HookEnv} {t : HookTest} (h : Built env)
    (hr : Reached env t.pattern) {fuel : Nat}
    (hfuel : (findTargets env.toDyninstEnv true (.new t.pattern)).2.1.targetFuncs.length < fuel) :
    let pairs := pairsOf (t.main env (replaceFunction env) fuel).2
    let objs := getUserObjs env.image.objects
    pairs.Perm ((findTargets env.toDyninstEnv true (.new t.pattern)).2.1.targetFuncs.flatMap
        fun tf => (wrapperOf env tf).toList.map (tf.func, ·)) ∧
      ((∀ o ∈ objs, ∀ f, Targeted env.findFunction env.skip t.pattern o f →
          ∃ w, firstNamed o.functions f.name = some w ∧ (⟨o.id, f⟩, w) ∈ pairs) ↔
        ∀ o ∈ objs, ∀ f, Targeted env.findFunction env.skip t.pattern o f →
          ∀ o', owner env.skip objs o.name = some o' →
            (keptProcedures env.skip [] o'.functions)[position env.skip o f.name]? =
              (keptProcedures env.skip [] o.functions)[position env.skip o f.name]?) := by
  intro pairs objs
  have hperm := replace_pairs h hr hfuel
  refine ⟨hperm, forall₂_congr fun o ho => forall₂_congr fun f hf => ?_⟩
  have hkept : f.name ∈ keptFunctions env.skip o.functions := hf.2.1
  obtain ⟨o', howner⟩ := Option.isSome_iff_exists.1
    (isSome_owner ho (List.ne_nil_of_mem hkept) : (owner env.skip _ _).isSome)
  rw [← h.names o ho] at howner
  rw [keptProcedures_position hkept]
  have htarget := (mem_getTargetFuncs hr.found).2 ⟨o, ho, f, hf, rfl⟩
  -- every target that is `f` of this object has the wrapper of the owner
  have hwrapper : ∀ tf ∈ (findTargets env.toDyninstEnv true (.new t.pattern)).2.1.targetFuncs,
      tf.func = ⟨o.id, f⟩ → wrapperOf env tf =
        (keptProcedures env.skip [] o'.functions)[position env.skip o f.name]? := by
    intro tf htf hfunc
    obtain ⟨o₂, ho₂, f₂, -, hfunc₂, helf, hindex, -⟩ := exists_obj_of_target h hr.found htf
    rw [hfunc] at hfunc₂
    obtain ⟨hid, rfl⟩ := FuncRef.mk.inj hfunc₂
    obtain rfl : o = o₂ := List.inj_on_of_nodup_map h.ids (List.mem_filter.1 ho).1
      (List.mem_filter.1 ho₂).1 hid
    rw [wrapperOf, helf, ← h.names o ho, howner, hindex, Option.bind_some]
  have hmem : ∀ w, (⟨o.id, f⟩, w) ∈ pairs ↔
      (keptProcedures env.skip [] o'.functions)[position env.skip o f.name]? = some w := by
    intro w
    rw [hperm.mem_iff, List.mem_flatMap]
    constructor
    · rintro ⟨tf, htf, hpair⟩
      obtain ⟨w', hw', hpair⟩ := List.mem_map.1 hpair
      obtain ⟨hfunc, rfl⟩ := Prod.mk.inj hpair
      rw [← hwrapper tf htf hfunc]
      exact Option.mem_toList.1 hw'
    · intro hw
      refine ⟨_, htarget, List.mem_map.2 ⟨w, Option.mem_toList.2 ?_, rfl⟩⟩
      rw [hwrapper _ htarget rfl]
      exact hw
  constructor
  · rintro ⟨w, hw, hpair⟩ o'' ho''
    rw [howner] at ho''
    cases ho''
    rw [hw]
    exact (hmem w).1 hpair
  · intro hown
    have hsome : ∃ w, firstNamed o.functions f.name = some w := by
      rw [← keptProcedures_position hkept]
      have hlen : position env.skip o f.name < (keptProcedures env.skip [] o.functions).length := by
        have hnames := congrArg List.length (names_keptProcedures env.skip [] o.functions)
        rw [List.length_map] at hnames
        rw [hnames]
        exact List.idxOf_lt_length_iff.2 hkept
      exact ⟨_, List.getElem?_eq_getElem hlen⟩
    obtain ⟨w, hw⟩ := hsome
    exact ⟨w, hw, (hmem w).2 ((hown o' howner).trans hw)⟩

/-- The hook of a target is looked up in vain. -/
theorem wrapHook_eq_nil {env : HookEnv} (h : Built env) {pattern : CStr}
    (hfound : (findTargets env.toDyninstEnv true (.new pattern)).1 = true) {e : CStr × List Nat}
    (he : e ∈ elfEntries (findTargets env.toDyninstEnv true (.new pattern)).2.1) {lib : WrapLib}
    (hlib : loadWrapLib env (findTargets env.toDyninstEnv true (.new pattern)).2.2 e.1 = some lib)
    {k : Nat} (hk : k ∈ e.2) {t : TargetFunc}
    (ht : (findTargets env.toDyninstEnv true (.new pattern)).2.1.targetFuncs[k]? = some t) :
    wrapHook lib t = [] := by
  have hlists := elfLists_findTargets env.toDyninstEnv true pattern
  rw [(hlists.eq_some_iff.1 (((elfEntries_spec hlists).mem e.1 e.2).1 he)).2] at hk
  obtain ⟨t', ht', helf⟩ := mem_placesOf.1 hk
  rw [ht] at ht'
  cases ht'
  obtain ⟨o, lib', -, hlib', -, hsyms⟩ := loadWrapLib_owner h hfound (List.mem_of_getElem? ht)
  rw [helf, hlib] at hlib'
  cases hlib'
  have hnone : findHookSymbol lib t.index = none := by
    refine List.find?_eq_none.2 fun s hs => ?_
    simp only [decide_eq_true_eq]
    rintro rfl
    exact hsyms _ hs
  unfold wrapHook
  rw [hnone]
  split <;> rfl

/-- **`wrap` wraps nothing.** Whatever is found and loaded, the session is that of a command whose
`handleFunction` does nothing, its exit status included. -/
theorem wrap_wraps_nothing {env : HookEnv} (h : Built env) (t : HookTest) (fuel : Nat) :
    t.main env wrapHook fuel = t.main env (fun _ _ => []) fuel ∧
      ∀ a ∈ (t.main env wrapHook fuel).2, ∃ b, a = .session b := by
  have hsame : t.main env wrapHook fuel = t.main env (fun _ _ => []) fuel := by
    unfold HookTest.main
    by_cases hfound : (findTargets env.toDyninstEnv true (.new t.pattern)).1 = true
    · have hloop : hookElfs env wrapHook (findTargets env.toDyninstEnv true (.new t.pattern)).2.2
          (findTargets env.toDyninstEnv true (.new t.pattern)).2.1.targetFuncs fuel
          (elfEntries (findTargets env.toDyninstEnv true (.new t.pattern)).2.1) =
            hookElfs env (fun _ _ => []) (findTargets env.toDyninstEnv true (.new t.pattern)).2.2
              (findTargets env.toDyninstEnv true (.new t.pattern)).2.1.targetFuncs fuel
              (elfEntries (findTargets env.toDyninstEnv true (.new t.pattern)).2.1) :=
        hookElfs_congr fun e he lib hlib k hk tf htf => wrapHook_eq_nil h hfound he hlib hk htf
      unfold HookTest.process
      dsimp only
      rw [hloop]
    · simp [hfound]
  refine ⟨hsame, fun a ha => ?_⟩
  rw [hsame] at ha
  unfold HookTest.main HookTest.process at ha
  dsimp only at ha
  split at ha
  · cases ha
  split at ha
  · exact ⟨_, List.mem_singleton.1 ha⟩
  rcases List.mem_cons.1 ha with rfl | ha
  · exact ⟨_, rfl⟩
  split at ha
  · cases ha
  split at ha
  · exact ⟨_, List.mem_singleton.1 ha⟩
  · rename_i acts hacts
    rcases List.mem_append.1 ha with ha | ha
    · rcases List.mem_cons.1 ha with rfl | ha
      · exact ⟨_, rfl⟩
      · rcases mem_hookElfs hacts ha with hs | ⟨e, he, lib, hlib, k, hk, tf, htf, ha⟩
        · exact hs
        · cases ha
    · obtain ⟨b, -, rfl⟩ := List.mem_map.1 ha
      exact ⟨b, rfl⟩

/-! ## Two plug-ins of one base name -/

def plugA : BPatchObject :=
  ⟨1, "libplug.so".toList, "/a/libplug.so".toList, false, [⟨"foo".toList, 0, true, 2⟩]⟩

def plugB : BPatchObject :=
  ⟨2, "libplug.so".toList, "/b/libplug.so".toList, false,
    [⟨"bar".toList, 0, true, 3⟩, ⟨"foo".toList, 0, true, 4⟩]⟩

/-- The library made of the source of these wrappers. -/
def libraryOf (kept : List BPatchFunction) : WrapLib :=
  ⟨wrapperFunctions kept, sourceSymbols kept⟩

/-- Everything works. The file that `gcc` makes holds the source, and a library is known by it. -/
def HookEnv.ofObjects (objs : List BPatchObject) : HookEnv where
  toDyninstEnv := { DyninstEnv.granting with
    image := ⟨objs, fun _ => none⟩
    load := fun _ => { LoadEnv.granting with gcc := some }
    fs := (mutateeFs.write plugA.pathName ['3'] .elf).write plugB.pathName ['4'] .elf }
  library text := ((objs.map fun o => keptProcedures [] [] o.functions).find? fun kept =>
    decide (sourceText kept = text)).map libraryOf
  calls _ := ⟨true, [true], [(.print, false)], true⟩

def HookEnv.plugs : HookEnv := .ofObjects [mainObj, plugA, plugB]

/-- `lprofile replace -w /a/out /a/prog`. -/
def outTest : HookTest := ⟨.edit, "/a/prog".toList, "/a/out".toList, patternAll⟩

theorem built_ofObjects {objs : List BPatchObject} (hids : (objs.map (·.id)).Nodup)
    (hobjs : ∀ o ∈ objs, o.name = baseName o.pathName ∧ ¬ funcmapPrefix <+: o.name ∧
      o.functions.length < 2 ^ 32)
    (hlib : ∀ o ∈ objs,
      (HookEnv.ofObjects objs).library (sourceText (keptProcedures [] [] o.functions)) =
        some (libraryOf (keptProcedures [] [] o.functions))) : Built (.ofObjects objs) := by
  have hmem : ∀ o ∈ getUserObjs objs, o ∈ objs := fun o ho => (List.mem_filter.1 ho).1
  refine ⟨hids, fun o ho => (hobjs o (hmem o ho)).1, fun o ho => (hobjs o (hmem o ho)).2.1,
    fun o ho => (hobjs o (hmem o ho)).2.2, fun o ho text htext => ?_⟩
  obtain rfl := Option.some.inj htext
  exact ⟨_, hlib o (hmem o ho), rfl, fun i hi => hi⟩

theorem built_plugs : Built .plugs := by
  refine built_ofObjects (by decide) ?_ ?_
  · simp only [List.forall_mem_cons]
    decide
  · simp only [List.forall_mem_cons]
    decide +kernel

theorem reached_plugs : Reached .plugs patternAll := by
  refine ⟨rfl, by decide +kernel, rfl, fun elf => ?_⟩
  have hlen : (findTargets HookEnv.plugs.toDyninstEnv true
      (.new patternAll)).2.1.targetFuncs.length = 5 := by decide +kernel
  rw [placesOf, List.length_findIdxs]
  refine lt_of_le_of_lt List.countP_le_length ?_
  rw [hlen]
  decide

/-- The calls of `foo` in the first plug-in go to the wrapper of `bar` in the second. -/
theorem replace_own_wrapper_iff_prog :
    (⟨1, ⟨"foo".toList, 0, true, 2⟩⟩, ⟨"bar".toList, 0, true, 3⟩) ∈
        pairsOf (outTest.main .plugs (replaceFunction .plugs) 6).2 ∧
      ¬ ∀ o ∈ getUserObjs HookEnv.plugs.image.objects, ∀ f,
        Targeted HookEnv.plugs.findFunction HookEnv.plugs.skip outTest.pattern o f →
          ∃ w, firstNamed o.functions f.name = some w ∧
            (⟨o.id, f⟩, w) ∈ pairsOf (outTest.main .plugs (replaceFunction .plugs) 6).2 := by
  obtain ⟨hperm, hiff⟩ := replace_own_wrapper_iff (t := outTest) built_plugs reached_plugs
    (by decide +kernel : _ < 6)
  refine ⟨hperm.mem_iff.2 (by decide +kernel), fun hown => ?_⟩
  have huser : plugA ∈ getUserObjs HookEnv.plugs.image.objects :=
    List.mem_filter.2 ⟨by simp [HookEnv.plugs, HookEnv.ofObjects], by decide⟩
  have hfoo : Targeted HookEnv.plugs.findFunction HookEnv.plugs.skip outTest.pattern plugA
      ⟨"foo".toList, 0, true, 2⟩ := ⟨⟨patternAll, by decide, by decide⟩, by decide⟩
  have howner : owner HookEnv.plugs.skip (getUserObjs HookEnv.plugs.image.objects) plugA.name =
      some plugB := rfl
  exact absurd (hiff.1 hown plugA huser _ hfoo plugB howner) (by decide)

/-- The session of `wrap` ends with status 0. -/
theorem wrap_wraps_nothing_prog :
    (outTest.main (.ofObjects [mainObj]) wrapHook 3).1 = some 0 ∧
      ∀ a ∈ (outTest.main (.ofObjects [mainObj]) wrapHook 3).2, ∃ b, a = .session b :=
  have hbuilt : Built (.ofObjects [mainObj]) :=
    built_ofObjects (by decide) (by simp only [List.forall_mem_cons]; decide)
      (by simp only [List.forall_mem_cons]; decide +kernel)
  ⟨by decide +kernel, (wrap_wraps_nothing hbuilt outTest 3).2⟩

end Lprofile.Utils
