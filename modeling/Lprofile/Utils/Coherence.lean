import Lprofile.Lib.Machine
import Lprofile.Utils.Libraries

/-!
# Coherence of the cache

The cache file is named after the base name of the ELF, and counts as up to date
as long as it is not older than the ELF, in whole seconds. A history is any
sequence of ELF files written, of loads, and of the clock moving on. The loads
of it agree with the ELF files as long as every load that is served from the
cache finds there what was written for an image with the same functions
(`cache_coherent`): another ELF of the same base name, or an ELF written again
in the second of its cache file, breaks this. Where neither happens every cache
file that is read is fresh (`freshCache_of_ownNames`).
-/

namespace Lprofile.Utils

open Lprofile.Lib

/-! ## Histories -/

inductive HistoryAct where
  | tick (d : Nat)
  | write (path contents : CStr)
  /-- `FuncMap(path, wrap).load(force)` -/
  | load (path : CStr) (wrap force : Bool) (env : LoadEnv)

section

variable (procedures : CStr → List BPatchFunction) (skip : List CStr)

def historyStep (fs : Fs) : HistoryAct → Fs
  | .tick d => { fs with now := fs.now + d }
  | .write path contents => fs.write path contents .elf
  | .load path wrap force env =>
    (FuncMap.load procedures skip env (FuncMap.ofPath path wrap) force fs).2.2

def historyMachine : Machine Fs HistoryAct Empty where
  Enabled _ _ := True
  step fs a := .ok (historyStep procedures skip fs a)

/-- A `load(false)` that returns true gives what reading the ELF now would give. -/
def Coherent (fs : Fs) (a : HistoryAct) : Prop :=
  ∀ path wrap env, a = .load path wrap false env →
    let r := FuncMap.load procedures skip env (FuncMap.ofPath path wrap) false fs
    let d := loadFromELF procedures skip .granting (FuncMap.ofPath path wrap) fs
    r.1 = true → d.1 = true ∧ r.2.1.funcs = d.2.1.funcs ∧
      ∀ n, getFunctionID r.2.1 n = getFunctionID d.2.1 n

/-- The load reads the cache file. -/
def Served (fs : Fs) (path : CStr) (wrap : Bool) (env : LoadEnv) : Prop :=
  checkState env (FuncMap.ofPath path wrap) fs = .cached ∧ env.openCache = true

/-- A load that reads the cache file finds one that `updateCache` wrote. -/
def OwnCache (fs : Fs) (a : HistoryAct) : Prop :=
  ∀ path wrap env, a = .load path wrap false env → Served fs path wrap env →
    ∃ file image, fs.files (cachePath path) = some file ∧ file.origin = .cache image

/-- It was written for an image with the functions the ELF has now. -/
def FreshCache (fs : Fs) (a : HistoryAct) : Prop :=
  ∀ path wrap env, a = .load path wrap false env → Served fs path wrap env →
    ∃ elf file image, fs.files path = some elf ∧ fs.files (cachePath path) = some file ∧
      file.origin = .cache image ∧
      keptFunctions skip (procedures image) = keptFunctions skip (procedures elf.text)

variable {procedures skip} in
theorem FreshCache.ownCache {fs : Fs} {a : HistoryAct} (h : FreshCache procedures skip fs a) :
    OwnCache fs a := by
  intro path wrap env e hs
  obtain ⟨-, file, image, -, hf, ho, -⟩ := h path wrap env e hs
  exact ⟨file, image, hf, ho⟩

/-! ## The invariant -/

/-- Cache files hold the functions of the image they were written for. -/
def CachesOk (fs : Fs) : Prop :=
  ∀ p file image, fs.files p = some file → file.origin = .cache image →
    file.text = cacheText (keptFunctions skip (procedures image))

variable {procedures skip}

theorem CachesOk.wraps {fs fs' : Fs} (h : CachesOk procedures skip fs) (hw : Wraps fs fs') :
    CachesOk procedures skip fs' := by
  intro p file image hf ho
  rcases hw.files p with e | ⟨f, e, hwrap⟩
  · exact h p file image (e ▸ hf) ho
  · cases e.symm.trans hf
    rw [hwrap] at ho
    cases ho

theorem CachesOk.write {fs : Fs} (h : CachesOk procedures skip fs) {path text : CStr}
    {origin : Origin} (ht : ∀ image, origin = .cache image →
      text = cacheText (keptFunctions skip (procedures image))) :
    CachesOk procedures skip (fs.write path text origin) := by
  intro p file image hf ho
  by_cases hp : p = path
  · subst hp
    rw [Fs.write_self] at hf
    cases hf
    exact ht image ho
  · rw [Fs.write_of_ne hp] at hf
    exact h p file image hf ho

theorem CachesOk.loadFromELF {fs : Fs} (h : CachesOk procedures skip fs) (env : LoadEnv)
    (path : CStr) (wrap : Bool) :
    CachesOk procedures skip
      (loadFromELF procedures skip env (FuncMap.ofPath path wrap) fs).2.2 := by
  rcases helf : fs.files path with _ | elf
  · have hpath : (FuncMap.ofPath path wrap).elfPath = path := rfl
    rw [Utils.loadFromELF, hpath, helf]
    exact h
  · obtain ⟨-, ⟨fs', hw, e | e⟩, -⟩ :=
      loadFromELF_spec procedures skip wrap env helf
    · rw [e]
      exact h.wraps hw
    · rw [e]
      exact (h.wraps hw).write fun image ho => by cases ho; rfl

theorem CachesOk.step {fs : Fs} (h : CachesOk procedures skip fs) (a : HistoryAct) :
    CachesOk procedures skip (historyStep procedures skip fs a) := by
  cases a with
  | tick d => exact h
  | write path contents => exact h.write fun image ho => by cases ho
  | load path wrap force env =>
    simp only [historyStep, FuncMap.load]
    cases force with
    | true => exact h.loadFromELF env path wrap
    | false =>
      rw [if_neg Bool.false_ne_true]
      cases checkState env (FuncMap.ofPath path wrap) fs with
      | cached => exact h
      | update => exact h.loadFromELF env path wrap
      | enoelf => exact h
      | ecache => exact h

theorem cachesOk_run {as : List HistoryAct} :
    (historyMachine procedures skip).Always .empty as (CachesOk procedures skip) := by
  refine Machine.always_of_step (fun p file image hf => by cases hf) ?_
  intro pre a post t t' _ _ hP hs
  cases hs
  exact hP.step a

/-! ## One load -/

/-- What is assumed of the function names. -/
def ShortNames (procedures : CStr → List BPatchFunction) : Prop :=
  ∀ image, ∀ f ∈ procedures image,
    f.name ≠ [] ∧ '\n' ∉ f.name ∧ f.name.length < funcNameMax - 1

/-- The cache file of an image gives its functions back. -/
theorem ShortNames.cachedNames_eq (h : ShortNames procedures) (image : CStr) :
    cachedNames (cacheText (keptFunctions skip (procedures image))) =
      keptFunctions skip (procedures image) := by
  have hname : ∀ n ∈ keptFunctions skip (procedures image),
      '\n' ∉ n ∧ n.length < funcNameMax - 1 := by
    intro n hn
    obtain ⟨⟨f, hf, rfl⟩, -⟩ := exists_of_mem_keptFunctions hn
    exact (h image f hf).2
  exact cachedNames_of_short (fun n hn => (hname n hn).1) fun n hn => (hname n hn).2

theorem insertAll_keptFunctions (procs : List BPatchFunction) :
    insertAll skip [] (keptFunctions skip procs) = keptFunctions skip procs :=
  insertAll_eq_append (nodup_keptFunctions skip procs) (fun _ _ => List.not_mem_nil)
    fun _ hn => (exists_of_mem_keptFunctions hn).2

section

variable {fs : Fs} {path : CStr} {wrap : Bool} {env : LoadEnv}

/-- There are an ELF and a cache file that is not older. -/
theorem Served.files (h : Served fs path wrap env) : ∃ elf file, fs.files path = some elf ∧
    fs.files (cachePath path) = some file ∧ elf.mtime ≤ file.mtime := by
  have hstate := h.1
  unfold checkState at hstate
  split at hstate
  · cases hstate
  · rename_i elf helf
    split at hstate
    · cases hstate
    · split at hstate
      · cases hstate
      · rename_i file hfile
        split at hstate
        · cases hstate
        · rename_i hlt
          exact ⟨elf, file, helf, hfile, Nat.not_lt.1 hlt⟩

/-- What a load from the cache returns. -/
theorem load_served (hn : ShortNames procedures) (hc : CachesOk procedures skip fs)
    (hs : Served fs path wrap env) {file : File} {image : CStr}
    (hf : fs.files (cachePath path) = some file) (ho : file.origin = .cache image) :
    let r := FuncMap.load procedures skip env (FuncMap.ofPath path wrap) false fs
    r.1 = true ∧ r.2.1.Numbered ∧ r.2.1.funcs = keptFunctions skip (procedures image) := by
  have hload : loadFromCache skip env (FuncMap.ofPath path wrap) fs = _ :=
    loadFromCache_ok hs.2 hf
  obtain ⟨hnum, hfuncs⟩ := addFunctions_spec (FuncMap.numbered_ofPath path wrap) skip
    (cachedNames file.text)
  simp only [FuncMap.load, hs.1, hload, Bool.false_eq_true, ↓reduceIte]
  refine ⟨trivial, hnum, hfuncs.trans ?_⟩
  rw [hc _ file image hf ho, hn.cachedNames_eq]
  exact insertAll_keptFunctions _

/-- Any other load that returns true has read the ELF. -/
theorem load_not_served (hs : ¬ Served fs path wrap env)
    (hr : (FuncMap.load procedures skip env (FuncMap.ofPath path wrap) false fs).1 = true) :
    let r := FuncMap.load procedures skip env (FuncMap.ofPath path wrap) false fs
    ∃ elf, fs.files path = some elf ∧ r.2.1.Numbered ∧
      r.2.1.funcs = keptFunctions skip (procedures elf.text) := by
  simp only [FuncMap.load, Bool.false_eq_true, ↓reduceIte] at hr ⊢
  cases hst : checkState env (FuncMap.ofPath path wrap) fs with
  | cached =>
    rw [hst] at hr
    refine absurd ⟨hst, ?_⟩ hs
    rcases hf : fs.files (cachefile (FuncMap.ofPath path wrap)) with _ | file
    · simp [loadFromCache, hf] at hr
    · by_contra ho
      simp [loadFromCache, hf, ho] at hr
  | update =>
    rw [hst] at hr
    exact loadFromELF_ok hr
  | enoelf => rw [hst] at hr; cases hr
  | ecache => rw [hst] at hr; cases hr

end

/-- A load of an own cache file is right exactly when the file is fresh. -/
theorem coherent_iff_freshCache (hn : ShortNames procedures) {fs : Fs}
    (hc : CachesOk procedures skip fs) {a : HistoryAct} (hown : OwnCache fs a) :
    Coherent procedures skip fs a ↔ FreshCache procedures skip fs a := by
  constructor
  · intro h path wrap env e hs
    obtain ⟨file, image, hf, ho⟩ := hown path wrap env e hs
    obtain ⟨elf, -, helf, -, -⟩ := hs.files
    obtain ⟨hr, hnum, hfuncs⟩ := load_served hn hc hs hf ho
    obtain ⟨hd, hsame, -⟩ := h path wrap env e hr
    have hdirect := ((loadFromELF_spec procedures skip wrap .granting helf).1 hd).2
    exact ⟨elf, file, image, helf, hf, ho, by rw [← hfuncs, hsame, hdirect]⟩
  · intro h path wrap env e r d hr
    -- the map has the functions of the ELF, from the cache or from the ELF
    have hmap : ∃ elf, fs.files path = some elf ∧ r.2.1.Numbered ∧
        r.2.1.funcs = keptFunctions skip (procedures elf.text) := by
      by_cases hs : Served fs path wrap env
      · obtain ⟨elf, file, image, helf, hf, ho, hsame⟩ := h path wrap env e hs
        obtain ⟨-, hnum, hfuncs⟩ := load_served hn hc hs hf ho
        exact ⟨elf, helf, hnum, hfuncs.trans hsame⟩
      · exact load_not_served hs hr
    obtain ⟨elf, helf, hnum, hfuncs⟩ := hmap
    obtain ⟨hdirect, -, hd⟩ := loadFromELF_spec procedures skip wrap .granting helf
    obtain ⟨hnum', hfuncs'⟩ := hdirect (hd rfl)
    have e := hfuncs.trans hfuncs'.symm
    exact ⟨hd rfl, e, hnum.getFunctionID_congr hnum' e⟩

/-! ## Whole histories -/

/-- **Every load of a history agrees with the ELF it is asked for** when each one that reads the
cache finds a fresh file; and where these files are the tool's own, only then. -/
theorem cache_coherent (hn : ShortNames procedures) (as : List HistoryAct) :
    let M := historyMachine procedures skip
    (M.AtEach .empty as (FreshCache procedures skip) →
      M.AtEach .empty as (Coherent procedures skip)) ∧
    (M.AtEach .empty as OwnCache → M.AtEach .empty as (Coherent procedures skip) →
      M.AtEach .empty as (FreshCache procedures skip)) := by
  have hok : ∀ pre a post fs, as = pre ++ a :: post →
      (historyMachine procedures skip).run .empty pre = .ok fs → CachesOk procedures skip fs :=
    fun pre a post fs e hr => cachesOk_run pre fs ⟨a :: post, e.symm⟩ hr
  constructor
  · intro h pre a post fs e hr
    have hf := h pre a post fs e hr
    exact (coherent_iff_freshCache hn (hok pre a post fs e hr) hf.ownCache).2 hf
  · intro hown h pre a post fs e hr
    exact (coherent_iff_freshCache hn (hok pre a post fs e hr) (hown pre a post fs e hr)).1
      (h pre a post fs e hr)

end

/-! ## Apart in name and in time -/

/-- The history loads this path. -/
def LoadedIn (as : List HistoryAct) (path : CStr) : Prop :=
  ∃ wrap force env, HistoryAct.load path wrap force env ∈ as

/-- No two paths that are loaded have one base name, nor has one of them that of a wrapper file;
and the ELF files are not in the directory of the cache. -/
structure OwnNames (as : List HistoryAct) : Prop where
  base : ∀ p q, LoadedIn as p → LoadedIn as q → baseName p = baseName q → p = q
  plain : ∀ p, LoadedIn as p → ¬ funcmapPrefix <+: baseName p
  loaded : ∀ p, LoadedIn as p → ¬ funcmapDir <+: p
  written : ∀ p contents, .write p contents ∈ as → ¬ funcmapDir <+: p

/-- An ELF is not written again in the second of its cache file. -/
def WrittenLater (fs : Fs) (a : HistoryAct) : Prop :=
  ∀ path contents, a = .write path contents →
    ∀ file, fs.files (cachePath path) = some file → file.mtime < fs.now

/-- The cache file of `path` is for the image that is there, or older than it. -/
def Timely (path : CStr) (fs : Fs) : Prop :=
  ∀ file, fs.files (cachePath path) = some file → ∃ image, file.origin = .cache image ∧
    ∀ elf, fs.files path = some elf → elf.mtime ≤ file.mtime → elf.text = image

section

variable {procedures : CStr → List BPatchFunction} {skip : List CStr} {as : List HistoryAct}
  {path : CStr} {fs : Fs}

theorem Timely.congr {fs' : Fs} (h : Timely path fs)
    (hcache : fs'.files (cachePath path) = fs.files (cachePath path))
    (helf : fs'.files path = fs.files path) : Timely path fs' := by
  unfold Timely
  rw [hcache, helf]
  exact h

/-- A load leaves the ELF files where they are. -/
theorem loadFromELF_elf (hpath : ¬ funcmapDir <+: path) {env : LoadEnv} {q : CStr} {wrap : Bool} :
    (loadFromELF procedures skip env (FuncMap.ofPath q wrap) fs).2.2.files path =
      fs.files path := by
  have hne : ∀ rest, path ≠ funcmapDir ++ rest := fun rest e => hpath ⟨rest, e.symm⟩
  have hfile : ∀ file, path ≠ getWrapFilePath (baseName q) file := by
    intro file
    cases file with
    | src =>
      rw [getWrapFilePath, List.append_assoc, List.append_assoc]
      exact hne _
    | lib =>
      rw [getWrapFilePath, List.append_assoc, List.append_assoc]
      exact hne _
  rcases @loadFromELF_files procedures skip env wrap fs path q (hfile .src) (hfile .lib) with
    h | ⟨h, -⟩
  · exact h
  · exact absurd h (hne _)

theorem Timely.loadFromELF (h : Timely path fs) (hown : OwnNames as) (hpath : LoadedIn as path)
    {q : CStr} (hq : LoadedIn as q) (env : LoadEnv) (wrap : Bool) :
    Timely path (loadFromELF procedures skip env (FuncMap.ofPath q wrap) fs).2.2 := by
  have hplain := hown.plain path hpath
  have helf := @loadFromELF_elf procedures skip path fs (hown.loaded path hpath) env q wrap
  rcases @loadFromELF_files procedures skip env wrap fs (cachePath path) q
      (wrapFile_ne_cache hplain .src).symm (wrapFile_ne_cache hplain .lib).symm with
    hfile | ⟨hcache, elf, hread, hfile⟩
  · exact h.congr hfile helf
  · -- the cache file is that of the ELF which has just been read
    obtain rfl := hown.base path q hpath hq (List.append_cancel_left hcache)
    intro file hf
    rw [hfile] at hf
    cases hf
    refine ⟨elf.text, rfl, fun elf' helf' _ => ?_⟩
    rw [helf, hread] at helf'
    cases helf'
    rfl

theorem Timely.step (h : Timely path fs) (hown : OwnNames as) (hpath : LoadedIn as path)
    {a : HistoryAct} (ha : a ∈ as) (hlater : WrittenLater fs a) :
    Timely path (historyStep procedures skip fs a) := by
  cases a with
  | tick d => exact h
  | write q contents =>
    have hcache : cachePath path ≠ q := fun e =>
      hown.written q contents ha ⟨baseName path, e⟩
    by_cases hq : path = q
    · subst hq
      intro file hf
      rw [historyStep, Fs.write_of_ne hcache] at hf
      obtain ⟨image, ho, -⟩ := h file hf
      refine ⟨image, ho, fun elf helf hle => ?_⟩
      rw [historyStep, Fs.write_self] at helf
      cases helf
      -- the cache file is older than the new ELF
      exact absurd (hlater path contents rfl file hf) (Nat.not_lt.2 hle)
    · exact h.congr (Fs.write_of_ne hcache ..) (Fs.write_of_ne hq ..)
  | load q wrap force env =>
    have hq : LoadedIn as q := ⟨wrap, force, env, ha⟩
    simp only [historyStep, FuncMap.load]
    cases force with
    | true => exact h.loadFromELF hown hpath hq env wrap
    | false =>
      rw [if_neg Bool.false_ne_true]
      cases checkState env (FuncMap.ofPath q wrap) fs with
      | cached => exact h
      | update => exact h.loadFromELF hown hpath hq env wrap
      | enoelf => exact h
      | ecache => exact h

/-- A cache file that is read is for the image there is. -/
theorem Timely.freshCache (h : ∀ path, LoadedIn as path → Timely path fs) {a : HistoryAct}
    (ha : a ∈ as) : FreshCache procedures skip fs a := by
  rintro path wrap env rfl hs
  obtain ⟨elf, file, helf, hfile, hle⟩ := hs.files
  obtain ⟨image, ho, hsame⟩ := h path ⟨wrap, false, env, ha⟩ file hfile
  exact ⟨elf, file, image, helf, hfile, ho, by rw [hsame elf helf hle]⟩

/-- **Different base names, and no ELF written again in the second of its cache file**: then every
cache file that a load reads is fresh. -/
theorem freshCache_of_ownNames (hown : OwnNames as)
    (hlater : (historyMachine procedures skip).AtEach .empty as WrittenLater) :
    (historyMachine procedures skip).AtEach .empty as (FreshCache procedures skip) := by
  have hall : (historyMachine procedures skip).Always .empty as fun fs =>
      ∀ path, LoadedIn as path → Timely path fs := by
    refine Machine.always_of_step (fun _ _ _ hf => by cases hf) ?_
    intro pre a post t t' e hr hP hs path hpath
    cases hs
    exact (hP path hpath).step hown hpath (e ▸ by simp) (hlater pre a post t e hr)
  intro pre a post fs e hr
  exact Timely.freshCache (hall pre fs ⟨a :: post, e.symm⟩ hr) (e ▸ by simp)

end

/-! ## A program in two versions -/

/-- The second version has its functions in the other order. -/
def versions (image : CStr) : List BPatchFunction :=
  if image = ['1'] then [⟨"main".toList, 0, true, 0⟩, ⟨"foo".toList, 0, true, 1⟩]
  else if image = ['2'] then [⟨"foo".toList, 0, true, 0⟩, ⟨"main".toList, 0, true, 1⟩]
  else []

theorem versions_short : ShortNames versions := by
  intro image f hf
  unfold versions at hf
  by_cases h1 : image = ['1']
  · rw [if_pos h1] at hf
    revert f
    decide
  · rw [if_neg h1] at hf
    by_cases h2 : image = ['2']
    · rw [if_pos h2] at hf
      revert f
      decide
    · rw [if_neg h2] at hf
      cases hf

/-- The program is built, loaded, and loaded again from the cache. -/
def rebuildHistory : List HistoryAct :=
  [.write "/a/prog".toList ['1'], .tick 1, .load "/a/prog".toList false false .granting,
    .load "/a/prog".toList false false .granting]

theorem ownNames_rebuild : OwnNames rebuildHistory := by
  have hpath : ∀ p, LoadedIn rebuildHistory p → p = "/a/prog".toList := by
    rintro p ⟨wrap, force, env, h⟩
    simp only [rebuildHistory, List.mem_cons, HistoryAct.load.injEq, reduceCtorEq, false_or,
      List.not_mem_nil, or_false, or_self] at h
    exact h.1
  refine ⟨fun p q hp hq _ => (hpath p hp).trans (hpath q hq).symm, fun p hp => ?_, fun p hp => ?_,
    fun p contents h => ?_⟩
  · rw [hpath p hp]
    decide
  · rw [hpath p hp]
    decide
  · simp only [rebuildHistory, List.mem_cons, HistoryAct.write.injEq, reduceCtorEq,
      List.not_mem_nil, or_false] at h
    rw [h.1]
    decide

theorem cache_coherent_rebuild :
    (historyMachine versions []).AtEach .empty rebuildHistory (FreshCache versions []) ∧
      (historyMachine versions []).AtEach .empty rebuildHistory (Coherent versions []) := by
  have hlater : (historyMachine versions []).AtEach .empty rebuildHistory WrittenLater := by
    -- the only ELF is written before there is any file
    refine Machine.atEach_cons.2 ⟨fun _ _ _ _ hf => (by cases hf), fun t ht => ?_⟩
    refine Machine.atEach_cons.2 ⟨fun _ _ e => (by cases e), fun t ht => ?_⟩
    refine Machine.atEach_cons.2 ⟨fun _ _ e => (by cases e), fun t ht => ?_⟩
    exact Machine.atEach_cons.2 ⟨fun _ _ e => (by cases e), fun _ _ => Machine.atEach_nil⟩
  have hfresh := freshCache_of_ownNames ownNames_rebuild hlater
  exact ⟨hfresh, (cache_coherent versions_short rebuildHistory).1 hfresh⟩

/-- Two programs of one base name; and one program written again within the second. -/
theorem stale_cache_served :
    ShortNames versions ∧
      ¬ (historyMachine versions []).AtEach .empty
        [.write "/a/prog".toList ['1'], .load "/a/prog".toList false false .granting,
          .write "/b/prog".toList ['2'], .load "/b/prog".toList false false .granting]
        (Coherent versions []) ∧
      ¬ (historyMachine versions []).AtEach .empty
        [.write "/a/prog".toList ['1'], .load "/a/prog".toList false false .granting,
          .write "/a/prog".toList ['2'], .load "/a/prog".toList false false .granting]
        (Coherent versions []) := by
  refine ⟨versions_short, fun h => ?_, fun h => ?_⟩
  · have hlast := h [_, _, _] _ [] _ rfl rfl _ _ _ rfl (by decide +kernel)
    exact absurd hlast.2.1 (by decide +kernel)
  · have hlast := h [_, _, _] _ [] _ rfl rfl _ _ _ rfl (by decide +kernel)
    exact absurd hlast.2.1 (by decide +kernel)

end Lprofile.Utils
