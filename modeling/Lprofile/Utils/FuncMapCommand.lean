import Lprofile.Lib.Getopt
import Lprofile.Lib.Machine
import Lprofile.Utils.CacheDir
import Lprofile.Utils.Instrumented
import Lprofile.Utils.Libraries

/-!
# The funcmap command, and the cache over time

`lprofile funcmap` writes the cache file of one ELF, or leaves it when it is up to date
(`FuncMapTest.main`). It either does its work or changes no file (`funcmap_outcome`).

The numbers in a data file are those of the session that made it, and the cache file of
the object has the names. Every command that loads an object of this base name later
writes the cache file again, and it can be interrupted by any failure. As long as
these objects have the same functions the file keeps its lines (`numbers_stay`).

All commands make their maps with `FuncMap(path, wrap)`, so that the skip list is empty.
-/

namespace Lprofile.Utils

open Lprofile.Lib Lprofile.Probe

/-! ## Command lines -/

/-- The members of `FuncMapTest` that options set. -/
structure FuncMapTest where
  elfPath : CStr
  forceUpdate : Bool
  deriving DecidableEq

namespace FuncMapTest

/-- What the constructor leaves. -/
def initial : FuncMapTest := ⟨[], false⟩

/-- The switch in the loop of `parseArgs`; `present` is `access` with `F_OK`. -/
def option (present : CStr → Bool) (t : FuncMapTest) : Opt → Option FuncMapTest
  | ⟨'e', some optarg⟩ => if present optarg then some { t with elfPath := optarg } else none
  | ⟨'f', _⟩ => some { t with forceUpdate := true }
  | _ => none

def optStr : CStr := "e:f".toList

/-- `parseArgs`, `none` when it returns false. -/
def parseArgs (present : CStr → Bool) (args : List CStr) : Option FuncMapTest := do
  let t ← (getopt optStr args).foldlM (option present) initial
  if t.elfPath.length = 0 then none else some t

/-- `main` after `parseArgs`: `init` is the load, and `process` does nothing. -/
def load (procedures : CStr → List BPatchFunction) (env : LoadEnv) (t : FuncMapTest) (fs : Fs) :
    Bool × FuncMap × Fs :=
  FuncMap.load procedures (skiplist false) env (FuncMap.ofPath t.elfPath false) t.forceUpdate fs

/-- `main`: the exit status, and the files. -/
def main (procedures : CStr → List BPatchFunction) (present : CStr → Bool) (env : LoadEnv)
    (args : List CStr) (fs : Fs) : Nat × Fs :=
  match parseArgs present args with
  | none => (1, fs)
  | some t =>
    let r := t.load procedures env fs
    (if r.1 then 0 else 1, r.2.2)

/-- The option is one of the command, and the file it names is there. -/
def Known (present : CStr → Bool) (o : Opt) : Prop :=
  o.c = 'f' ∨ o.c = 'e' ∧ ∃ path, o.optarg = some path ∧ present path = true

/-- The command line says so: the last `-e` counts, and every one of them has to be there. -/
structure Says (present : CStr → Bool) (args : List CStr) (t : FuncMapTest) : Prop where
  known : ∀ o ∈ getopt optStr args, Known present o
  elfPath : t.elfPath = (lastArg 'e' (getopt optStr args)).getD []
  some : t.elfPath ≠ []
  forceUpdate : t.forceUpdate = (getopt optStr args).any fun o => o.c = 'f'

variable {present : CStr → Bool}

/-- The members after an option of the command. -/
def set (t : FuncMapTest) (o : Opt) : FuncMapTest :=
  ⟨(if o.c = 'e' then o.optarg else none).getD t.elfPath, t.forceUpdate || decide (o.c = 'f')⟩

theorem option_eq_some {t t' : FuncMapTest} {o : Opt} :
    option present t o = some t' ↔ Known present o ∧ t' = t.set o := by
  unfold option Known
  split
  · rename_i optarg
    by_cases hp : present optarg = true
    · rw [if_pos hp]
      simp [set, hp, @eq_comm _ t']
    · rw [if_neg hp]
      simp [hp]
  · simp [set, @eq_comm _ t']
  · rename_i hne hnf
    obtain ⟨c, optarg⟩ := o
    refine iff_of_false (by simp) ?_
    rintro ⟨rfl | ⟨rfl, p, rfl, -⟩, -⟩
    · exact hnf _ rfl
    · exact hne _ rfl

theorem foldlM_option_eq_some {os : List Opt} {t t' : FuncMapTest} :
    os.foldlM (option present) t = some t' ↔
      (∀ o ∈ os, Known present o) ∧ t' = os.foldl set t := by
  induction os generalizing t with
  | nil => simp [@eq_comm _ t']
  | cons o os ih =>
    rw [List.foldlM_cons, Option.bind_eq_bind, Option.bind_eq_some_iff, List.forall_mem_cons,
      List.foldl_cons]
    simp only [option_eq_some, ih]
    constructor
    · rintro ⟨u, ⟨hknown, rfl⟩, hrest, ht⟩
      exact ⟨⟨hknown, hrest⟩, ht⟩
    · rintro ⟨⟨hknown, hrest⟩, ht⟩
      exact ⟨_, ⟨hknown, rfl⟩, hrest, ht⟩

theorem foldl_set (os : List Opt) (t : FuncMapTest) :
    os.foldl set t = ⟨(lastArg 'e' os).getD t.elfPath,
      t.forceUpdate || os.any fun o => o.c = 'f'⟩ := by
  induction os generalizing t with
  | nil => simp [lastArg]
  | cons o os ih =>
    rw [List.foldl_cons, ih, lastArg, List.any_cons, set, Bool.or_assoc]
    cases lastArg 'e' os <;> rfl

theorem parseArgs_eq_some {args : List CStr} {t : FuncMapTest} :
    parseArgs present args = some t ↔ Says present args t := by
  unfold parseArgs
  rw [Option.bind_eq_bind, Option.bind_eq_some_iff]
  simp only [foldlM_option_eq_some, foldl_set]
  constructor
  · rintro ⟨u, ⟨hknown, rfl⟩, ht⟩
    split at ht
    · cases ht
    · rename_i hlen
      cases ht
      exact ⟨hknown, rfl, fun hnil => hlen (by rw [hnil]; rfl), Bool.false_or _⟩
  · intro h
    refine ⟨t, ⟨h.known, ?_⟩, if_neg fun hlen => h.some (List.eq_nil_of_length_eq_zero hlen)⟩
    obtain ⟨path, force⟩ := t
    rw [FuncMapTest.mk.injEq]
    exact ⟨h.elfPath, h.forceUpdate.trans (Bool.false_or _).symm⟩

/-! ## The load -/

/-- The cache file counts as up to date for this ELF. -/
def UpToDate (fs : Fs) (path : CStr) (elf : File) : Prop :=
  ∃ cache, fs.files (cachePath path) = some cache ∧ elf.mtime ≤ cache.mtime ∧ cache.text ≠ []

/-- The ELF can be read, and its cache file written. -/
def Granted (env : LoadEnv) : Bool :=
  env.openBinary && env.getProcedures && env.buildDir && env.openCache

/-- The command reads the ELF. -/
structure Refreshes (env : LoadEnv) (t : FuncMapTest) (fs : Fs) (elf : File) : Prop where
  there : fs.files t.elfPath = some elf
  wanted : t.forceUpdate = true ∨ env.statCache = true ∧ ¬ UpToDate fs t.elfPath elf
  granted : Granted env = true

/-- The command reads the cache file. -/
structure Serves (env : LoadEnv) (t : FuncMapTest) (fs : Fs) (elf : File) : Prop where
  there : fs.files t.elfPath = some elf
  force : t.forceUpdate = false
  upToDate : UpToDate fs t.elfPath elf
  granted : env.statCache = true ∧ env.openCache = true

variable {procedures : CStr → List BPatchFunction} {env : LoadEnv} {fs : Fs} {elf : File}

theorem checkState_cases {path : CStr} (helf : fs.files path = some elf) (env : LoadEnv)
    (wrap : Bool) :
    (env.statCache = false ∧ checkState env (.ofPath path wrap) fs = .ecache) ∨
    (env.statCache = true ∧ UpToDate fs path elf ∧
      checkState env (.ofPath path wrap) fs = .cached) ∨
    (env.statCache = true ∧ ¬ UpToDate fs path elf ∧
      checkState env (.ofPath path wrap) fs = .update) := by
  have hpath : (FuncMap.ofPath path wrap).elfPath = path := rfl
  have hcache : cachefile (FuncMap.ofPath path wrap) = cachePath path := rfl
  unfold checkState
  rw [hpath, helf, hcache]
  dsimp only
  cases hstat : env.statCache with
  | false => exact .inl ⟨rfl, rfl⟩
  | true =>
    refine .inr ?_
    cases hfile : fs.files (cachePath path) with
    | none => exact .inr ⟨rfl, fun ⟨cache, h, _⟩ => (by rw [hfile] at h; cases h), rfl⟩
    | some cache =>
      have hdate : UpToDate fs path elf ↔ elf.mtime ≤ cache.mtime ∧ cache.text ≠ [] := by
        simp [UpToDate, hfile]
      rw [hdate]
      by_cases hold : cache.mtime < elf.mtime
      · exact .inr ⟨rfl, fun h => absurd h.1 (by omega), by simp [hold]⟩
      · by_cases hempty : cache.text = []
        · exact .inr ⟨rfl, fun h => h.2 hempty, by simp [hold, hempty]⟩
        · exact .inl ⟨rfl, ⟨by omega, hempty⟩, by simp [hold, hempty]⟩

theorem addFunctions_isWrap (skip names : List CStr) (m : FuncMap) :
    (addFunctions skip m names).isWrap = m.isWrap := by
  induction names generalizing m with
  | nil => rfl
  | cons f names ih => exact (ih _).trans (addFunction_frame skip m f).2.2.1

theorem finishELF_plain {m : FuncMap} (hwrap : m.isWrap = false) (env : LoadEnv) (image : CStr)
    (fs : Fs) :
    finishELF env image (true, m, fs) =
      ((updateCache env image m fs).1, m, (updateCache env image m fs).2) := by
  simp [finishELF, hwrap]

/-- Without wrappers the cache file is all that is written, and only in the end. -/
theorem loadFromELF_plain {path : CStr} {skip : List CStr} (helf : fs.files path = some elf) :
    let r := loadFromELF procedures skip env (.ofPath path false) fs
    (r.1, r.2.2) =
      if Granted env then (true, fs.write (cachePath path)
        (cacheText (keptFunctions skip (procedures elf.text))) (.cache elf.text))
      else (false, fs) := by
  have hpath : (FuncMap.ofPath path false).elfPath = path := rfl
  dsimp only
  rcases loadFromELF_cases procedures skip env (.ofPath path false) fs with
    ⟨hload, hno⟩ | ⟨elf', helf', hyes, hload⟩
  · rw [hload, if_neg]
    rcases hno with hno | hno
    · rw [hpath, helf] at hno
      cases hno
    · intro hgranted
      simp only [Granted, Bool.and_eq_true] at hgranted
      simp [hgranted] at hno
  · rw [hpath, helf] at helf'
    cases helf'
    let m := addFunctions skip (.ofPath path false) ((procedures elf.text).map (·.name))
    have hkept : m.funcs = keptFunctions skip (procedures elf.text) :=
      (addFunctions_spec (FuncMap.numbered_ofPath path false) skip _).2
    have hcache : cachefile m = cachePath path := addFunctions_cachefile skip _
    have hread : env.openBinary = true ∧ env.getProcedures = true := by simpa using hyes
    rw [hload, addProcedures_plain fs (.inl rfl), finishELF_plain (addFunctions_isWrap skip _ _)]
    show ((updateCache env elf.text m fs).1, (updateCache env elf.text m fs).2) = _
    rw [updateCache, hcache, hkept]
    cases hd : env.buildDir with
    | false => simp [Granted, hd]
    | true => cases ho : env.openCache <;> simp [Granted, hd, ho, hread]

theorem load_refreshes {t : FuncMapTest} (h : t.Refreshes env fs elf) :
    let r := t.load procedures env fs
    r.1 = true ∧ r.2.2 = fs.write (cachePath t.elfPath)
      (cacheText (keptFunctions (skiplist false) (procedures elf.text))) (.cache elf.text) := by
  have helf : t.load procedures env fs =
      loadFromELF procedures (skiplist false) env (.ofPath t.elfPath false) fs := by
    unfold load FuncMap.load
    rcases h.wanted with hforce | ⟨hstat, hold⟩
    · rw [if_pos hforce]
    · rcases checkState_cases h.there env false with ⟨hs, -⟩ | ⟨-, hdate, -⟩ | ⟨-, -, hs⟩
      · rw [hstat] at hs
        cases hs
      · exact absurd hdate hold
      · rw [hs, ite_self]
  have hplain := @loadFromELF_plain procedures env fs elf t.elfPath (skiplist false) h.there
  rw [if_pos h.granted, Prod.mk.injEq] at hplain
  rw [helf]
  exact hplain

theorem load_serves {t : FuncMapTest} (h : t.Serves env fs elf) :
    let r := t.load procedures env fs
    r.1 = true ∧ r.2.2 = fs := by
  obtain ⟨cache, hfile, -⟩ := h.upToDate
  have hcache : fs.files (cachefile (FuncMap.ofPath t.elfPath false)) = some cache := hfile
  rcases checkState_cases h.there env false with ⟨hs, -⟩ | ⟨-, -, hs⟩ | ⟨-, hold, -⟩
  · rw [h.granted.1] at hs
    cases hs
  · simp [load, FuncMap.load, h.force, hs, loadFromCache_ok h.granted.2 hcache]
  · exact absurd h.upToDate hold

/-- A load that does neither fails, and leaves the files. -/
theorem load_fails {t : FuncMapTest} (hr : ∀ elf, ¬ t.Refreshes env fs elf)
    (hs : ∀ elf, ¬ t.Serves env fs elf) :
    let r := t.load procedures env fs
    r.1 = false ∧ r.2.2 = fs := by
  have hpath : (FuncMap.ofPath t.elfPath false).elfPath = t.elfPath := rfl
  cases helf : fs.files t.elfPath with
  | none =>
    have hstate : checkState env (FuncMap.ofPath t.elfPath false) fs = .enoelf := by
      rw [checkState, hpath, helf]
    have helf' : loadFromELF procedures (skiplist false) env (.ofPath t.elfPath false) fs =
        (false, .ofPath t.elfPath false, fs) := by
      rw [loadFromELF, hpath, helf]
    cases hforce : t.forceUpdate with
    | true => simp [load, FuncMap.load, hforce, helf']
    | false => simp [load, FuncMap.load, hforce, hstate]
  | some elf =>
    have hplain := @loadFromELF_plain procedures env fs elf t.elfPath (skiplist false) helf
    have hfails (hwant : t.forceUpdate = true ∨
        env.statCache = true ∧ ¬ UpToDate fs t.elfPath elf) :
        let r := loadFromELF procedures (skiplist false) env (.ofPath t.elfPath false) fs
        r.1 = false ∧ r.2.2 = fs := by
      rw [if_neg fun hg => hr elf ⟨helf, hwant, hg⟩, Prod.mk.injEq] at hplain
      exact hplain
    unfold load FuncMap.load
    cases hforce : t.forceUpdate with
    | true => exact hfails (.inl hforce)
    | false =>
      rcases checkState_cases helf env false with ⟨-, hstate⟩ | ⟨hstat, hdate, hstate⟩ |
        ⟨hstat, hold, hstate⟩
      · simp [hstate]
      · have hopen : env.openCache = false := by
          by_contra hopen
          exact hs elf ⟨helf, hforce, hdate, hstat, by simpa using hopen⟩
        obtain ⟨cache, hfile, -⟩ := hdate
        have hcache : fs.files (cachefile (FuncMap.ofPath t.elfPath false)) = some cache := hfile
        simp [hstate, loadFromCache, hcache, hopen]
      · simp only [hstate, Bool.false_eq_true, ↓reduceIte]
        exact hfails (.inr ⟨hstat, hold⟩)

end FuncMapTest

/-! ## The cache over time -/

/-- A command, or what happens between two. -/
inductive ToolStep where
  | tick (d : Nat)
  /-- an ELF is built -/
  | build (path contents : CStr)
  /-- `lprofile funcmap` -/
  | funcmap (present : CStr → Bool) (env : LoadEnv) (args : List CStr)
  /-- the loads of `prof`, `tracer`, `wrap` or `replace` -/
  | targets (isWrap : Bool) (env : BPatchObject → LoadEnv) (objs : List BPatchObject)
      (pattern : CStr)

section

variable (procedures : CStr → List BPatchFunction)
  (findFunction : BPatchObject → CStr → List BPatchFunction)

def toolStep (fs : Fs) : ToolStep → Fs
  | .tick d => { fs with now := fs.now + d }
  | .build path contents => fs.write path contents .elf
  | .funcmap present env args => (FuncMapTest.main procedures present env args fs).2
  | .targets isWrap env objs pattern =>
    (getTargetFuncs findFunction (skiplist false) env isWrap objs (.new pattern) fs).2.2

def toolMachine : Machine Fs ToolStep Empty where
  Enabled _ _ := True
  step fs a := .ok (toolStep procedures findFunction fs a)

/-- What is loaded under the base name of `path` has these functions. -/
def SameNames (path : CStr) (names : List CStr) (fs : Fs) : ToolStep → Prop
  | .tick _ => True
  | .build p _ => p ≠ cachePath path
  | .funcmap present _ args => ∀ t elf, FuncMapTest.Says present args t →
      fs.files t.elfPath = some elf → baseName t.elfPath = baseName path →
      keptFunctions (skiplist false) (procedures elf.text) = names
  | .targets _ _ objs _ => ∀ o ∈ getUserObjs objs, baseName o.pathName = baseName path →
      keptFunctions (skiplist false) o.functions = names

end

/-- The cache file of `path` has these lines. -/
def Cached (path : CStr) (names : List CStr) (fs : Fs) : Prop :=
  ∃ file, fs.files (cachePath path) = some file ∧ file.text = cacheText names

section

variable {procedures : CStr → List BPatchFunction}
  {findFunction : BPatchObject → CStr → List BPatchFunction} {path : CStr} {names : List CStr}
  {fs : Fs}

theorem Cached.congr {fs' : Fs} (h : Cached path names fs)
    (hfile : fs'.files (cachePath path) = fs.files (cachePath path)) : Cached path names fs' := by
  obtain ⟨file, hf, htext⟩ := h
  exact ⟨file, hfile.trans hf, htext⟩

/-- A load keeps the lines, wherever it stops. -/
theorem Cached.load (h : Cached path names fs) (hplain : ¬ funcmapPrefix <+: baseName path)
    {q : CStr} {skip : List CStr} (env : LoadEnv) (wrap : Bool)
    (hsame : baseName q = baseName path → ∀ elf, fs.files q = some elf →
      keptFunctions skip (procedures elf.text) = names) :
    Cached path names (loadFromELF procedures skip env (.ofPath q wrap) fs).2.2 := by
  rcases @loadFromELF_files procedures skip env wrap fs (cachePath path) q
      (wrapFile_ne_cache hplain .src).symm (wrapFile_ne_cache hplain .lib).symm with
    hfile | ⟨hcache, elf, helf, hfile⟩
  · exact h.congr hfile
  · have hbase : baseName q = baseName path := (List.append_cancel_left hcache).symm
    exact ⟨_, hfile, congrArg cacheText (hsame hbase elf helf)⟩

theorem Cached.loads (hplain : ¬ funcmapPrefix <+: baseName path) {skip : List CStr}
    {env : BPatchObject → LoadEnv} {isWrap : Bool} {objs : List BPatchObject} {c : CountUtil}
    (h : Cached path names fs)
    (hsame : ∀ o ∈ objs, baseName o.pathName = baseName path →
      keptFunctions skip o.functions = names) :
    Cached path names (loadTargets findFunction skip env isWrap objs c fs).2.2 := by
  induction objs generalizing c fs with
  | nil => exact h
  | cons o objs ih =>
    obtain ⟨ho, hobjs⟩ := List.forall_mem_cons.1 hsame
    have hload : Cached path names (loadFromELF (fun _ => o.functions) skip (env o)
        (.ofPath o.pathName isWrap) fs).2.2 :=
      h.load hplain (env o) isWrap fun hbase _ _ => ho hbase
    simp only [loadTargets, FuncMap.load_force]
    split
    · exact ih hload hobjs
    · exact hload

/-- After all loads the cache file of each object is there. -/
theorem cached_of_loadTargets {skip : List CStr} {env : BPatchObject → LoadEnv} {isWrap : Bool}
    {objs : List BPatchObject} {c : CountUtil} {o : BPatchObject} (ho : o ∈ objs)
    (hplain : ¬ funcmapPrefix <+: baseName o.pathName)
    (hsame : ∀ o' ∈ objs, baseName o'.pathName = baseName o.pathName →
      keptFunctions skip o'.functions = keptFunctions skip o.functions)
    (hok : (loadTargets findFunction skip env isWrap objs c fs).1 = true) :
    Cached o.pathName (keptFunctions skip o.functions)
      (loadTargets findFunction skip env isWrap objs c fs).2.2 := by
  induction objs generalizing c fs with
  | nil => cases ho
  | cons o' objs ih =>
    obtain ⟨-, hobjs⟩ := List.forall_mem_cons.1 hsame
    simp only [loadTargets, FuncMap.load_force] at hok ⊢
    split at hok
    · rename_i hload
      rw [if_pos hload]
      rcases List.mem_cons.1 ho with rfl | hmem
      · obtain ⟨file, hfile, htext⟩ := loadFromELF_cached _ _ _ _ _ hload
        obtain ⟨elf, -, -, hfuncs⟩ := loadFromELF_ok hload
        rw [cachefile, elfName_loadFromELF] at hfile
        exact Cached.loads hplain ⟨file, hfile, by rw [htext, hfuncs]⟩ hobjs
      · exact ih hmem hobjs hok
    · cases hok

theorem getTargetFuncs_fs (skip : List CStr) (env : BPatchObject → LoadEnv) (isWrap : Bool)
    (objs : List BPatchObject) (c : CountUtil) (fs : Fs) :
    (getTargetFuncs findFunction skip env isWrap objs c fs).2.2 =
      (loadTargets findFunction skip env isWrap (getUserObjs objs) c fs).2.2 := by
  unfold getTargetFuncs
  dsimp only
  split
  · rfl
  · split <;> rfl

theorem loadTargets_of_getTargetFuncs {skip : List CStr} {env : BPatchObject → LoadEnv}
    {isWrap : Bool} {objs : List BPatchObject} {c : CountUtil}
    (h : (getTargetFuncs findFunction skip env isWrap objs c fs).1 = true) :
    (loadTargets findFunction skip env isWrap (getUserObjs objs) c fs).1 = true := by
  unfold getTargetFuncs at h
  dsimp only at h
  split at h
  · exact h
  · rename_i hok
    simpa using hok

/-- **A step** keeps the lines. -/
theorem Cached.step (hplain : ¬ funcmapPrefix <+: baseName path) (h : Cached path names fs)
    {a : ToolStep} (hsame : SameNames procedures path names fs a) :
    Cached path names (toolStep procedures findFunction fs a) := by
  cases a with
  | tick d => exact h
  | build p contents => exact h.congr (Fs.write_of_ne (Ne.symm hsame) ..)
  | funcmap present env args =>
    simp only [toolStep, FuncMapTest.main]
    cases hparse : FuncMapTest.parseArgs present args with
    | none => exact h
    | some t =>
      have hload := h.load hplain env false fun hbase elf helf =>
        hsame t elf (FuncMapTest.parseArgs_eq_some.1 hparse) helf hbase
      dsimp only [FuncMapTest.load, FuncMap.load]
      split
      · exact hload
      · split
        · exact h
        · exact hload
        · exact h
  | targets isWrap env objs pattern =>
    simp only [toolStep, getTargetFuncs_fs]
    exact h.loads hplain hsame

/-- **A run** keeps the lines. -/
theorem Cached.run (hplain : ¬ funcmapPrefix <+: baseName path) {steps : List ToolStep}
    (h : Cached path names fs)
    (hsame : (toolMachine procedures findFunction).AtEach fs steps
      (SameNames procedures path names)) :
    ∃ fs', (toolMachine procedures findFunction).run fs steps = .ok fs' ∧
      Cached path names fs' := by
  induction steps generalizing fs with
  | nil => exact ⟨fs, rfl, h⟩
  | cons a steps ih =>
    obtain ⟨hstep, hrest⟩ := Machine.atEach_cons.1 hsame
    exact ih (h.step hplain hstep) (hrest _ rfl)

/-- A target of the session has the place of its function as its number. -/
theorem index_of_target {skip : List CStr} {env : BPatchObject → LoadEnv} {isWrap : Bool}
    {objs : List BPatchObject} {pattern : CStr} {o : BPatchObject}
    (hids : ((getUserObjs objs).map (·.id)).Nodup) (ho : o ∈ getUserObjs objs)
    (hfew : (keptFunctions skip o.functions).length ≤ 2 ^ 32)
    (hfound : (getTargetFuncs findFunction skip env isWrap objs (.new pattern) fs).1 = true)
    {t : TargetFunc} (hobj : t.func.obj = o.id)
    (ht : t ∈ (getTargetFuncs findFunction skip env isWrap objs (.new pattern)
      fs).2.1.targetFuncs) :
    (keptFunctions skip o.functions)[t.index]? = some t.func.func.name := by
  obtain ⟨htargets, hall⟩ :=
    @getTargetFuncs_targets findFunction skip env isWrap objs pattern fs
  rw [htargets, hall hfound, List.mem_flatMap] at ht
  obtain ⟨o', ho', ht⟩ := ht
  obtain ⟨f, hf, rfl⟩ := mem_objTargets.1 ht
  obtain rfl : o' = o := List.inj_on_of_nodup_map hids ho' ho hobj
  have hlt : position skip o' f.name < (keptFunctions skip o'.functions).length :=
    List.idxOf_lt_length_of_mem hf.2.1
  have hindex : (targetOf skip o' f).index = position skip o' f.name :=
    Nat.mod_eq_of_lt (by omega)
  rw [hindex, List.getElem?_eq_getElem hlt]
  exact congrArg some (List.getElem_idxOf hlt)

end

end Lprofile.Utils
