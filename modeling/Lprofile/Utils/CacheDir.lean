import Lprofile.Utils.Count

/-!
# The directory of the cache

`updateCache` makes the directories on the way to the cache file, one after the other
(`buildDir`), and then opens the file. `generateWrapper` opens the source of the wrappers
in the same directory, and comes first.

`Host` is a machine with its files and directories; `mkdir` needs the directory above.
A session loads the maps of all its objects, each of them anew (`getTargetFuncs`). On a
machine without the directory, a session that has a wrapper to write for its first
object fails, however often it is tried, until another session has made the directory
(`sessions_succeed_iff`).
-/

namespace Lprofile.Utils

open Lprofile.Lib Lprofile.Probe

/-! ## Directories -/

abbrev Dirs := CStr → Bool

/-- The directory a path is in; empty at the root. -/
def parentDir (path : CStr) : CStr := (path.reverse.dropWhile (· ≠ '/')).tail.reverse

section

variable (grant : CStr → Bool)

/-- `mkdir`, where the system grants it. -/
def mkdir (path : CStr) (d : Dirs) : Option Dirs :=
  if grant path && (decide (parentDir path = []) || d (parentDir path)) then
    some (Function.update d path true)
  else none

/-- The loop of `buildDir` from `pos` on. -/
def buildDirFrom (path : CStr) : Nat → Nat → Dirs → Option (Bool × Dirs)
  | 0, _, _ => none
  | fuel + 1, pos, d =>
    match find path '/' pos with
    | none => some (true, d)
    | some pos =>
      if pos = 0 then buildDirFrom path fuel 1 d
      else
        let subpath := substr path 0 pos
        if d subpath then buildDirFrom path fuel (pos + 1) d
        else
          match mkdir grant subpath d with
          | none => some (false, d)
          | some d => buildDirFrom path fuel (pos + 1) d

/-- `buildDir`; every round is at another slash, so the length of the path is enough. -/
def buildDir (d : Dirs) : Bool × Dirs :=
  (buildDirFrom grant funcmapDir (funcmapDir.length + 1) 0 d).getD (false, d)

end

/-- The path through these directories. -/
def dirPath (comps : List CStr) : CStr := '/' :: comps.flatMap (· ++ ['/'])

/-- The directories on the way, after those of `pre`. -/
def dirsFrom (pre : CStr) : List CStr → List CStr
  | [] => []
  | c :: comps => (pre ++ '/' :: c) :: dirsFrom (pre ++ '/' :: c) comps

theorem parentDir_append {pre c : CStr} (h : '/' ∉ c) : parentDir (pre ++ '/' :: c) = pre := by
  have hc : ∀ x ∈ c.reverse, decide (x ≠ '/') = true := by
    intro x hx
    have hne : x ≠ '/' := by
      rintro rfl
      exact h (List.mem_reverse.1 hx)
    simpa using hne
  rw [parentDir, List.reverse_append, List.reverse_cons, List.append_assoc,
    List.dropWhile_append_of_pos hc]
  simp

theorem find_slash (pre : CStr) {c : CStr} (h : '/' ∉ c) (rest : CStr) :
    find (pre ++ (c ++ '/' :: rest)) '/' pre.length = some (pre.length + c.length) := by
  have hidx : (c ++ '/' :: rest).idxOf? '/' = some c.length := by
    rw [List.idxOf?_eq_some_iff]
    refine ⟨by simp, by simp, fun j hj => ?_⟩
    rw [List.getElem_append_left hj]
    rintro heq
    exact h (heq ▸ List.getElem_mem hj)
  rw [find, List.drop_left, hidx]
  rfl

/-- **The loop of `buildDir`**, when the part `pre` of the path is there. -/
theorem buildDirFrom_eq {grant : CStr → Bool} :
    ∀ {comps : List CStr} {pre : CStr} {d : Dirs} {fuel : Nat}, (∀ c ∈ comps, '/' ∉ c) →
      (pre = [] ∨ d pre = true) → comps.length < fuel →
      (∀ p ∈ dirsFrom pre comps, d p = true ∨ grant p = true) →
      buildDirFrom grant (pre ++ dirPath comps) fuel (pre.length + 1) d =
        some (true, fun p => d p || decide (p ∈ dirsFrom pre comps))
  | [], pre, d, fuel + 1, _, _, _, _ => by
    have hend : find (pre ++ dirPath []) '/' (pre.length + 1) = none := by
      simp [find, dirPath]
    simp [buildDirFrom, hend, dirsFrom]
  | c :: comps, pre, d, fuel + 1, hc, hpre, hfuel, hgrant => by
    obtain ⟨hslash, hcomps⟩ := List.forall_mem_cons.1 hc
    obtain ⟨hfirst, hrest⟩ := List.forall_mem_cons.1 hgrant
    have hpath : pre ++ dirPath (c :: comps) = (pre ++ '/' :: c) ++ dirPath comps := by
      simp [dirPath]
    have hfind : find (pre ++ dirPath (c :: comps)) '/' (pre.length + 1) =
        some (pre.length + 1 + c.length) := by
      have h := find_slash (pre ++ ['/']) hslash (comps.flatMap (· ++ ['/']))
      simpa [dirPath] using h
    have hsub : substr (pre ++ dirPath (c :: comps)) 0 (pre.length + 1 + c.length) =
        pre ++ '/' :: c := by
      rw [hpath, substr, List.drop_zero]
      exact List.take_left' (by simp; omega)
    have hne : ¬ pre.length + 1 + c.length = 0 := by omega
    have hlen : (pre ++ '/' :: c).length + 1 = pre.length + 1 + c.length + 1 := by
      simp
      omega
    simp only [buildDirFrom, hfind, hne, ↓reduceIte, hsub]
    by_cases hd : d (pre ++ '/' :: c) = true
    · -- it is there already
      rw [if_pos hd, ← hlen, hpath, buildDirFrom_eq hcomps (.inr hd) (Nat.lt_of_succ_lt_succ hfuel)
        hrest]
      congr 2
      funext p
      by_cases hp : p = pre ++ '/' :: c
      · simp [hp, hd]
      · simp [dirsFrom, hp]
    · have hmk : mkdir grant (pre ++ '/' :: c) d =
          some (Function.update d (pre ++ '/' :: c) true) := by
        rw [mkdir, parentDir_append hslash, hfirst.resolve_left hd]
        rcases hpre with rfl | hpre
        · simp
        · simp [hpre]
      have hrest' : ∀ p ∈ dirsFrom (pre ++ '/' :: c) comps,
          Function.update d (pre ++ '/' :: c) true p = true ∨ grant p = true := by
        intro p hp
        by_cases hpc : p = pre ++ '/' :: c
        · exact .inl (by rw [hpc, Function.update_self])
        · rw [Function.update_of_ne hpc]
          exact hrest p hp
      rw [if_neg hd, hmk]
      dsimp only
      rw [← hlen, hpath, buildDirFrom_eq hcomps (.inr (Function.update_self ..))
        (Nat.lt_of_succ_lt_succ hfuel) hrest']
      congr 2
      funext p
      by_cases hp : p = pre ++ '/' :: c
      · simp [hp, dirsFrom]
      · simp [dirsFrom, hp]

/-- The directories of `FUNCMAP_DIR`. -/
def cacheComps : List CStr :=
  ["home".toList, "jiaru".toList, "lprofile".toList, "lprofile_cache".toList, "funcmap".toList]

def cacheDirs : List CStr := dirsFrom [] cacheComps

def cacheDir : CStr := funcmapDir.dropLast

theorem cacheDir_mem : cacheDir ∈ cacheDirs := by decide

/-- **`buildDir`** makes the directories that are missing. -/
theorem buildDir_eq {grant : CStr → Bool} {d : Dirs}
    (h : ∀ p ∈ cacheDirs, d p = true ∨ grant p = true) :
    buildDir grant d = (true, fun p => d p || decide (p ∈ cacheDirs)) := by
  have hpath : [] ++ dirPath cacheComps = funcmapDir := by decide
  have hroot : find funcmapDir '/' 0 = some 0 := by decide
  have hloop := @buildDirFrom_eq grant cacheComps [] d funcmapDir.length (by decide) (.inl rfl)
    (by decide) h
  rw [hpath] at hloop
  rw [buildDir, buildDirFrom, hroot]
  simp only [↓reduceIte]
  exact congrArg (Option.getD · (false, d)) hloop

/-! ## Loads on a machine -/

structure Host where
  fs : Fs
  dirs : Dirs

section

variable (grant : CStr → Bool) (findFunction : BPatchObject → CStr → List BPatchFunction)
  (skip : List CStr) (isWrap : Bool)

/-- What a load is granted where nothing but a directory can be missing. -/
def hostEnv (d : Dirs) : LoadEnv :=
  { LoadEnv.granting with
    openWrapper := d cacheDir
    buildDir := (buildDir grant d).1
    openCache := (buildDir grant d).2 cacheDir }

/-- `load(true)` for one object. It comes to `updateCache` if it succeeds with a cache file that can
be written. -/
def loadOn (obj : BPatchObject) (h : Host) : Bool × FuncMap × Host :=
  let env := hostEnv grant h.dirs
  let load := fun env => FuncMap.load (fun _ => obj.functions) skip env
    (FuncMap.ofPath obj.pathName isWrap) true h.fs
  let comes := (load { env with buildDir := true, openCache := true }).1
  ((load env).1, (load env).2.1,
    ⟨(load env).2.2, if comes then (buildDir grant h.dirs).2 else h.dirs⟩)

/-- The loop of `getTargetFuncs`. -/
def loadTargetsOn : List BPatchObject → CountUtil → Host → Bool × CountUtil × Host
  | [], c, h => (true, c, h)
  | obj :: objs, c, h =>
    let r := loadOn grant skip isWrap obj h
    if r.1 then loadTargetsOn objs (matchFuncs findFunction obj r.2.1 c.pattern c) r.2.2
    else (false, c, r.2.2)

end

/-- The load has a wrapper to write. -/
def HasWrapper (skip : List CStr) (isWrap : Bool) (obj : BPatchObject) : Bool :=
  isWrap && obj.functions.any fun f => decide (f.name ∉ skip)

section

variable {skip : List CStr} {env : LoadEnv}

theorem addFunction_skipped {m : FuncMap} {name : CStr} (h : name ∈ skip) :
    addFunction skip m name = (uintMax, m) := by
  unfold addFunction
  split
  · rfl
  · rfl

/-- A loop without a wrapper to write adds the functions. -/
theorem addProcedures_plain {procs : List BPatchFunction} {m : FuncMap} (fs : Fs)
    (h : m.isWrap = false ∨ ∀ f ∈ procs, f.name ∈ skip) :
    addProcedures skip env procs m fs = (true, addFunctions skip m (procs.map (·.name)), fs) := by
  induction procs generalizing m with
  | nil => rfl
  | cons f procs ih =>
    have hstep : addProcedure skip env f m fs = (true, (addFunction skip m f.name).2, fs) := by
      unfold addProcedure
      rcases h with hplain | hskip
      · simp [hplain]
      · simp [addFunction_skipped (hskip f List.mem_cons_self)]
    rw [addProcedures_cons, hstep]
    dsimp only
    rw [if_pos rfl, ih]
    · rfl
    · refine h.imp (fun hplain => ?_) fun hskip f' hf' => hskip f' (List.mem_cons_of_mem _ hf')
      rw [(addFunction_frame skip m f.name).2.2.1, hplain]

/-- The first wrapper cannot be written. -/
theorem addProcedures_blocked (hopen : env.openWrapper = false) {procs : List BPatchFunction}
    {m : FuncMap} (fs : Fs) (hm : m.Numbered) (hwrap : m.isWrap = true) (hnone : m.wrapper = none)
    (hfuncs : m.funcs = []) (h : ∃ f ∈ procs, f.name ∉ skip) :
    (addProcedures skip env procs m fs).1 = false := by
  induction procs with
  | nil =>
    obtain ⟨f, hf, -⟩ := h
    cases hf
  | cons f procs ih =>
    rw [addProcedures_cons]
    dsimp only
    by_cases hskip : f.name ∈ skip
    · have hstep : addProcedure skip env f m fs = (true, m, fs) := by
        simp [addProcedure, addFunction_skipped hskip]
      rw [hstep, if_pos rfl]
      obtain ⟨f', hf', hkept⟩ := h
      refine ih ⟨f', (List.mem_cons.1 hf').resolve_left ?_, hkept⟩
      rintro rfl
      exact hkept hskip
    · have hindex : (addFunction skip m f.name).1 = 0 := by
        rw [addFunction_index hm]
        simp [hfuncs, hskip]
      have hwrapper := (addFunction_frame skip m f.name).2.2.2.trans hnone
      have hstep : (addProcedure skip env f m fs).1 = false := by
        have hne : (0 != uintMax) = true := by decide
        simp only [addProcedure, hwrap, hindex, hne, Bool.and_self, ↓reduceIte, generateWrapper,
          hwrapper, hopen, Bool.false_eq_true]
      rw [if_neg (by simp [hstep])]
      exact hstep

theorem finishELF_succeeds (hgcc : ∀ src, (env.gcc src).isSome) (hdir : env.buildDir = true)
    (hcache : env.openCache = true) (image : CStr) {r : Bool × FuncMap × Fs} (hr : r.1 = true) :
    (finishELF env image r).1 = true := by
  obtain ⟨-, -, hc⟩ := compileWrappers_spec env hr
  unfold finishELF
  simp only [hr, Bool.not_true, Bool.false_eq_true, ↓reduceIte]
  generalize (if (r.2.1.isWrap && decide (0 < r.2.1.funcs.length)) = true then
    compileWrapper env r.2.1 r.2.2 else r) = c at hc ⊢
  simp [hc fun src _ => hgcc src, updateCache, hdir, hcache]

/-- Where only the wrapper source may be out of reach. -/
theorem load_true_iff {isWrap : Bool} {obj : BPatchObject} {fs : Fs} {opened : Bool}
    (helf : fs.files obj.pathName ≠ none) :
    (FuncMap.load (fun _ => obj.functions) skip { LoadEnv.granting with openWrapper := opened }
      (FuncMap.ofPath obj.pathName isWrap) true fs).1 = true ↔
        opened = true ∨ HasWrapper skip isWrap obj = false := by
  rw [FuncMap.load_force]
  rcases loadFromELF_cases (fun _ => obj.functions) skip
    { LoadEnv.granting with openWrapper := opened } (FuncMap.ofPath obj.pathName isWrap) fs with
    ⟨-, hno | hno⟩ | ⟨elf, -, -, hload⟩
  · exact absurd hno helf
  · cases hno
  · rw [hload]
    constructor
    · intro hok
      by_contra hblocked
      obtain ⟨hopen, hhas⟩ := not_or.1 hblocked
      obtain ⟨hwrap, f, hf, hkept⟩ : isWrap = true ∧ ∃ f ∈ obj.functions, f.name ∉ skip := by
        simpa [HasWrapper] using hhas
      have hfail : (addProcedures skip { LoadEnv.granting with openWrapper := opened }
          obj.functions (FuncMap.ofPath obj.pathName isWrap) fs).1 = false :=
        addProcedures_blocked (Bool.eq_false_of_not_eq_true hopen) fs
          (FuncMap.numbered_ofPath obj.pathName isWrap) hwrap rfl rfl ⟨f, hf, hkept⟩
      rw [finishELF_ok hok] at hfail
      cases hfail
    · intro h
      refine finishELF_succeeds (fun _ => rfl) rfl rfl _ ?_
      rcases h with hopen | hhas
      · exact (addProcedures_spec _ (FuncMap.numbered_ofPath obj.pathName isWrap) fs).2.2.2.2 hopen
      · rw [addProcedures_plain]
        by_cases hwrap : isWrap = true
        · refine .inr fun f hf => ?_
          simp only [HasWrapper, hwrap, Bool.true_and, List.any_eq_false, decide_eq_true_eq,
            not_not] at hhas
          exact hhas f hf
        · exact .inl (Bool.eq_false_of_not_eq_true hwrap)

theorem Fs.write_ne_none {fs : Fs} {p : CStr} (h : fs.files p ≠ none) (path text : CStr)
    (origin : Origin) : (fs.write path text origin).files p ≠ none := by
  by_cases hp : p = path
  · subst hp
    rw [Fs.write_self]
    exact Option.some_ne_none _
  · rwa [Fs.write_of_ne hp]

/-- A load removes no file. -/
theorem load_files {isWrap : Bool} {obj : BPatchObject} {fs : Fs} {p : CStr}
    (h : fs.files p ≠ none) :
    (FuncMap.load (fun _ => obj.functions) skip env (FuncMap.ofPath obj.pathName isWrap) true
      fs).2.2.files p ≠ none := by
  rw [FuncMap.load_force]
  rcases helf : fs.files obj.pathName with _ | elf
  · have hpath : (FuncMap.ofPath obj.pathName isWrap).elfPath = obj.pathName := rfl
    rw [loadFromELF, hpath, helf]
    exact h
  · obtain ⟨-, ⟨fs', hwraps, hfs⟩, -⟩ :=
      loadFromELF_spec (fun _ => obj.functions) skip isWrap env helf
    have hfs' : fs'.files p ≠ none := by
      rcases hwraps.files p with heq | ⟨f, hf, -⟩
      · rwa [heq]
      · rw [hf]
        exact Option.some_ne_none _
    rcases hfs with heq | heq
    · rwa [heq]
    · rw [heq]
      exact Fs.write_ne_none hfs' _ _ _

end

/-! ## Sessions -/

section

variable {grant : CStr → Bool} {findFunction : BPatchObject → CStr → List BPatchFunction}
  {skip : List CStr} {isWrap : Bool}

/-- What can be made is made, and stays. -/
structure Host.Grows (h h' : Host) : Prop where
  files : ∀ p, h.fs.files p ≠ none → h'.fs.files p ≠ none
  dirs : ∀ p, h.dirs p = true → h'.dirs p = true

theorem Host.Grows.refl (h : Host) : h.Grows h := ⟨fun _ hp => hp, fun _ hp => hp⟩

theorem Host.Grows.trans {h h' h'' : Host} (h₁ : h.Grows h') (h₂ : h'.Grows h'') : h.Grows h'' :=
  ⟨fun p hp => h₂.files p (h₁.files p hp), fun p hp => h₂.dirs p (h₁.dirs p hp)⟩

/-- **One load** succeeds if the directory is there or no wrapper is to be written, and then the
directory is there. -/
theorem loadOn_spec {obj : BPatchObject} {h : Host} (helf : h.fs.files obj.pathName ≠ none)
    (hgrant : ∀ p ∈ cacheDirs, h.dirs p = true ∨ grant p = true) :
    (loadOn grant skip isWrap obj h).1 = (h.dirs cacheDir || !HasWrapper skip isWrap obj) ∧
      (loadOn grant skip isWrap obj h).2.2.dirs cacheDir =
        (h.dirs cacheDir || !HasWrapper skip isWrap obj) ∧
      h.Grows (loadOn grant skip isWrap obj h).2.2 := by
  have hdirs := buildDir_eq hgrant
  have henv : hostEnv grant h.dirs = { LoadEnv.granting with openWrapper := h.dirs cacheDir } := by
    simp [hostEnv, hdirs, LoadEnv.granting, cacheDir_mem]
  have hload : (FuncMap.load (fun _ => obj.functions) skip
      { LoadEnv.granting with openWrapper := h.dirs cacheDir }
      (FuncMap.ofPath obj.pathName isWrap) true h.fs).1 =
        (h.dirs cacheDir || !HasWrapper skip isWrap obj) := by
    rw [Bool.eq_iff_iff, load_true_iff helf]
    simp
  have hcomes : { hostEnv grant h.dirs with buildDir := true, openCache := true } =
      { LoadEnv.granting with openWrapper := h.dirs cacheDir } := by
    rw [henv]
    rfl
  refine ⟨?_, ?_, ⟨fun p hp => load_files hp, fun p hp => ?_⟩⟩
  · simp only [loadOn, henv, hload]
  · simp only [loadOn, hcomes, hload, hdirs]
    split
    · rename_i hok
      rw [hok]
      simp [cacheDir_mem]
    · rename_i hfail
      simp only [Bool.or_eq_true, not_or, Bool.not_eq_true] at hfail
      simp [hfail]
  · simp only [loadOn, hcomes, hload, hdirs]
    split
    · simp [hp]
    · exact hp

/-- With the directory there, every load succeeds. -/
theorem loadTargetsOn_there {objs : List BPatchObject} {c : CountUtil} {h : Host}
    (helf : ∀ o ∈ objs, h.fs.files o.pathName ≠ none)
    (hgrant : ∀ p ∈ cacheDirs, h.dirs p = true ∨ grant p = true) (hdir : h.dirs cacheDir = true) :
    (loadTargetsOn grant findFunction skip isWrap objs c h).1 = true ∧
      h.Grows (loadTargetsOn grant findFunction skip isWrap objs c h).2.2 := by
  induction objs generalizing c h with
  | nil => exact ⟨rfl, .refl h⟩
  | cons obj objs ih =>
    obtain ⟨hobj, hobjs⟩ := List.forall_mem_cons.1 helf
    obtain ⟨hok, -, hgrows⟩ := @loadOn_spec grant skip isWrap obj h hobj hgrant
    rw [hdir, Bool.true_or] at hok
    simp only [loadTargetsOn, hok, ↓reduceIte]
    obtain ⟨hrest, hgrows'⟩ := ih (fun o ho => hgrows.files _ (hobjs o ho))
      (fun p hp => (hgrant p hp).imp (hgrows.dirs p) id) (hgrows.dirs _ hdir)
    exact ⟨hrest, hgrows.trans hgrows'⟩

end

/-- The loads of one command: the objects of its mutatee, and whether it wraps. -/
structure LoadSession where
  isWrap : Bool
  objs : List BPatchObject
  pattern : CStr

namespace LoadSession

/-- Its first load has a wrapper to write. -/
def Blocked (skip : List CStr) (s : LoadSession) : Bool :=
  match getUserObjs s.objs with
  | [] => false
  | obj :: _ => HasWrapper skip s.isWrap obj

/-- It has a load, and the first one has no wrapper to write. -/
def Creates (skip : List CStr) (s : LoadSession) : Bool :=
  match getUserObjs s.objs with
  | [] => false
  | obj :: _ => !HasWrapper skip s.isWrap obj

section

variable (grant : CStr → Bool) (findFunction : BPatchObject → CStr → List BPatchFunction)
  (skip : List CStr)

def run (s : LoadSession) (h : Host) : Bool × Host :=
  let r := loadTargetsOn grant findFunction skip s.isWrap (getUserObjs s.objs) (.new s.pattern) h
  (r.1, r.2.2)

def runAll : List LoadSession → Host → List Bool × Host
  | [], h => ([], h)
  | s :: ss, h =>
    let r := s.run grant findFunction skip h
    let q := runAll ss r.2
    (r.1 :: q.1, q.2)

end

variable {grant : CStr → Bool} {findFunction : BPatchObject → CStr → List BPatchFunction}
  {skip : List CStr}

/-- **One session.** -/
theorem run_spec {s : LoadSession} {h : Host}
    (helf : ∀ o ∈ getUserObjs s.objs, h.fs.files o.pathName ≠ none)
    (hgrant : ∀ p ∈ cacheDirs, h.dirs p = true ∨ grant p = true) :
    (s.run grant findFunction skip h).1 = (h.dirs cacheDir || !s.Blocked skip) ∧
      (s.run grant findFunction skip h).2.dirs cacheDir = (h.dirs cacheDir || s.Creates skip) ∧
      h.Grows (s.run grant findFunction skip h).2 := by
  unfold run Blocked Creates
  cases hobjs : getUserObjs s.objs with
  | nil => simp [loadTargetsOn, Host.Grows.refl]
  | cons obj objs =>
    rw [hobjs] at helf
    obtain ⟨hobj, hrest⟩ := List.forall_mem_cons.1 helf
    obtain ⟨hok, hdir, hgrows⟩ := @loadOn_spec grant skip s.isWrap obj h hobj hgrant
    simp only [loadTargetsOn]
    cases hcase : (h.dirs cacheDir || !HasWrapper skip s.isWrap obj) with
    | false =>
      rw [hcase] at hok hdir
      simp only [hok, Bool.false_eq_true, ↓reduceIte]
      exact ⟨trivial, hdir, hgrows⟩
    | true =>
      rw [hcase] at hok hdir
      simp only [hok, ↓reduceIte]
      obtain ⟨hall, hgrows'⟩ := loadTargetsOn_there
        (fun o ho => hgrows.files _ (hrest o ho))
        (fun p hp => (hgrant p hp).imp (hgrows.dirs p) id) hdir
      exact ⟨hall, hgrows'.dirs _ hdir, hgrows.trans hgrows'⟩

/-- **Sessions on a machine** where nothing but a directory can be missing: a session fails exactly
if it has a wrapper to write first, the directory was not there, and no session before has made
it. -/
theorem sessions_succeed_iff {ss : List LoadSession} {h : Host}
    (helf : ∀ s ∈ ss, ∀ o ∈ getUserObjs s.objs, h.fs.files o.pathName ≠ none)
    (hgrant : ∀ p ∈ cacheDirs, h.dirs p = true ∨ grant p = true) {i : Nat} {s : LoadSession}
    (hi : ss[i]? = some s) :
    (runAll grant findFunction skip ss h).1[i]? = some true ↔
      h.dirs cacheDir = true ∨ s.Blocked skip = false ∨
        ∃ s' ∈ ss.take i, s'.Creates skip = true := by
  induction ss generalizing h i with
  | nil => cases hi
  | cons s₀ ss ih =>
    obtain ⟨helf₀, hrest⟩ := List.forall_mem_cons.1 helf
    obtain ⟨hok, hdir, hgrows⟩ := @run_spec grant findFunction skip s₀ h helf₀ hgrant
    cases i with
    | zero =>
      cases hi
      simp [runAll, hok]
    | succ i =>
      have hnext := ih (fun s' hs' o ho => hgrows.files _ (hrest s' hs' o ho))
        (fun p hp => (hgrant p hp).imp (hgrows.dirs p) id) hi
      simp only [runAll, List.getElem?_cons_succ, hnext, hdir, Bool.or_eq_true, List.take_succ_cons,
        List.mem_cons, exists_eq_or_imp]
      tauto

/-- `wrap` twice, `prof`, and `wrap` again, on a machine without the directory. -/
theorem sessions_succeed_iff_fresh :
    let wrap : LoadSession := ⟨true, [mainObj], patternAll⟩
    let prof : LoadSession := ⟨false, [mainObj], patternAll⟩
    let results := (runAll (fun _ => true) (fun o _ => o.functions) [] [wrap, wrap, prof, wrap]
      ⟨mutateeFs, fun _ => false⟩).1
    results[1]? ≠ some true ∧ results[3]? = some true := by
  intro wrap prof results
  have helf : ∀ s ∈ [wrap, wrap, prof, wrap], ∀ o ∈ getUserObjs s.objs,
      mutateeFs.files o.pathName ≠ none := by decide
  have hiff : ∀ {i : Nat} {s : LoadSession}, [wrap, wrap, prof, wrap][i]? = some s →
      (results[i]? = some true ↔ false = true ∨ s.Blocked [] = false ∨
        ∃ s' ∈ [wrap, wrap, prof, wrap].take i, s'.Creates [] = true) :=
    fun hi => sessions_succeed_iff helf (fun _ _ => .inr rfl) hi
  have hblocked : ¬ (false = true ∨ wrap.Blocked [] = false ∨
      ∃ s' ∈ [wrap], s'.Creates [] = true) := by decide
  exact ⟨fun h => hblocked ((hiff (i := 1) rfl).1 h),
    (hiff (i := 3) rfl).2 (.inr (.inr ⟨prof, by simp, by decide⟩))⟩

end LoadSession

end Lprofile.Utils
