import Lprofile.Utils.Load

/-!
# Where a map comes from

The skip list is a static of `funcmap.cc`. It is empty when the tool starts, and
two of the three constructors fill it; `FuncMap(path)` does not. `addFunction`
consults it both for the procedures of an ELF and for the lines of a cache file,
so that a name in the list is missing from a map when the list was filled at
either of these times.

A `Fill` is one way a map can get its functions: the constructors that ran
before in the same run of the tool, and for a cache file also those that ran
before it was written.
-/

namespace Lprofile.Utils

open Lprofile.Lib Lprofile.Probe

/-! ## Constructors -/

inductive Ctor where
  | named (name path : CStr) (wrap : Bool)
  | ofPath (path : CStr) (wrap : Bool)
  /-- `name` and `path` are what the `BPatch_object` says. -/
  | ofObject (name path : CStr) (wrap : Bool)

/-- The constructor calls `initSkipList`. -/
def Ctor.initsSkipList : Ctor → Bool
  | .named .. => true
  | .ofPath .. => false
  | .ofObject .. => true

/-- `obj == NULL`. -/
def Ctor.hasNoObject : Ctor → Bool
  | .ofObject .. => false
  | _ => true

def Ctor.path : Ctor → CStr
  | .named _ path _ => path
  | .ofPath path _ => path
  | .ofObject _ path _ => path

/-- The new map. -/
def Ctor.make : Ctor → FuncMap
  | .named name path wrap => .ofName name path wrap
  | .ofPath path wrap => .ofPath path wrap
  | .ofObject name path wrap => .ofName name path wrap

/-- The static, after these constructors ran in one run of the tool. -/
def skipInitialised (ctors : List Ctor) : Bool := ctors.any Ctor.initsSkipList

/-! ## Fills -/

inductive Fill where
  /-- The map of `c`, from the ELF. -/
  | elf (ctors : List Ctor) (c : Ctor)
  /-- The map of `c`, from a cache file that the map of `w` wrote after `before` had run. -/
  | cache (before : List Ctor) (w : Ctor) (ctors : List Ctor) (c : Ctor)

/-- The skip list was filled when the names went through `addFunction`. -/
def Fill.skips : Fill → Bool
  | .elf ctors _ => skipInitialised ctors
  | .cache before _ ctors _ => skipInitialised before || skipInitialised ctors

section

variable (procedures : CStr → List BPatchFunction) (image : CStr)

/-- `loadFromELF` through a binary of this image returned true with the map `m` and the files
`fs'`. The map's own constructor is among those that ran. -/
def FromELF (ctors : List Ctor) (c : Ctor) (m : FuncMap) (fs' : Fs) : Prop :=
  c ∈ ctors ∧ c.hasNoObject = true ∧ ∃ env fs elf, fs.files c.path = some elf ∧ elf.text = image ∧
    loadFromELF procedures (skiplist (skipInitialised ctors)) env c.make fs = (true, m, fs')

/-- The maps a fill can give. -/
def Fill.Gives : Fill → FuncMap → Prop
  | .elf ctors c, m => ∃ fs, FromELF procedures image ctors c m fs
  | .cache before w ctors c, m => c ∈ ctors ∧ ∃ m₀ fs₀ file env fs,
      FromELF procedures image before w m₀ fs₀ ∧ fs₀.files (cachefile m₀) = some file ∧
      fs.files (cachefile c.make) = some file ∧
      loadFromCache (skiplist (skipInitialised ctors)) env c.make fs = (true, m)

end

/-! ## The names of a filled map -/

/-- The three constructors make an empty map. -/
theorem Ctor.make_eq (c : Ctor) : ∃ name wrap, c.make = FuncMap.ofName name c.path wrap := by
  cases c with
  | named name path wrap => exact ⟨name, wrap, rfl⟩
  | ofPath path wrap => exact ⟨baseName path, wrap, rfl⟩
  | ofObject name path wrap => exact ⟨name, wrap, rfl⟩

variable {procedures : CStr → List BPatchFunction} {image : CStr}

theorem FromELF.funcs {ctors : List Ctor} {c : Ctor} {m : FuncMap} {fs : Fs}
    (h : FromELF procedures image ctors c m fs) :
    m.Numbered ∧
      m.funcs = keptFunctions (skiplist (skipInitialised ctors)) (procedures image) := by
  obtain ⟨-, -, env, fs₀, elf, helf, rfl, hload⟩ := h
  obtain ⟨name, wrap, hmake⟩ := c.make_eq
  rw [hmake] at hload
  have hspec := (loadFromELF_spec_ofName procedures (skiplist (skipInitialised ctors)) wrap name
    env helf).1
  rw [hload] at hspec
  exact hspec rfl

theorem FromELF.text {ctors : List Ctor} {c : Ctor} {m : FuncMap} {fs : Fs} {file : File}
    (h : FromELF procedures image ctors c m fs) (hfile : fs.files (cachefile m) = some file) :
    file.text = cacheText m.funcs := by
  obtain ⟨-, -, env, fs₀, elf, -, -, hload⟩ := h
  have hcached := loadFromELF_cached procedures (skiplist (skipInitialised ctors)) env c.make fs₀
    (by rw [hload])
  rw [hload] at hcached
  obtain ⟨file', hfile', htext⟩ := hcached
  rw [hfile] at hfile'
  cases hfile'
  exact htext

/-- Skipping twice is skipping if either time skips. -/
theorem keptFunctions_twice (b b' : Bool) (procs : List BPatchFunction) :
    insertAll (skiplist b') [] (keptFunctions (skiplist b) procs) =
      keptFunctions (skiplist (b || b')) procs := by
  rw [keptFunctions, insertAll_insertAll]
  refine insertAll_congr fun x _ => ?_
  rw [List.mem_append]
  cases b with
  | false => exact or_iff_right List.not_mem_nil
  | true =>
    cases b' with
    | false => exact or_iff_left List.not_mem_nil
    | true => exact or_self_iff

/-- What `getProcedures` lists can be cached: no newlines and no long names. -/
structure Cacheable (procs : List BPatchFunction) : Prop where
  line : ∀ p ∈ procs, '\n' ∉ p.name
  short : ∀ p ∈ procs, p.name.length < funcNameMax - 1

theorem Fill.Gives.funcs {f : Fill} {m : FuncMap} (h : f.Gives procedures image m)
    (hp : Cacheable (procedures image)) :
    m.Numbered ∧ m.funcs = keptFunctions (skiplist f.skips) (procedures image) := by
  cases f with
  | elf ctors c =>
    obtain ⟨fs, h⟩ := h
    exact h.funcs
  | cache before w ctors c =>
    obtain ⟨-, m₀, fs₀, file, env, fs, hw, hfile, hread, hload⟩ := h
    obtain ⟨-, hfuncs⟩ := hw.funcs
    have htext := hw.text hfile
    obtain ⟨name, wrap, hmake⟩ := c.make_eq
    have hnum : c.make.Numbered := hmake ▸ FuncMap.numbered_ofName name c.path wrap
    have hnil : c.make.funcs = [] := by rw [hmake]; rfl
    -- the lines come back as the names that were written
    have hnames : cachedNames file.text = m₀.funcs := by
      rw [htext]
      refine cachedNames_of_short (fun n hn => ?_) fun n hn => ?_
      · rw [hfuncs] at hn
        obtain ⟨⟨p, hp', rfl⟩, -⟩ := exists_of_mem_keptFunctions hn
        exact hp.line p hp'
      · rw [hfuncs] at hn
        obtain ⟨⟨p, hp', rfl⟩, -⟩ := exists_of_mem_keptFunctions hn
        exact hp.short p hp'
    have hm : m = addFunctions (skiplist (skipInitialised ctors)) c.make (cachedNames file.text) := by
      rw [loadFromCache, hread] at hload
      dsimp only at hload
      split at hload
      · cases hload
        rfl
      · cases hload
    obtain ⟨hn, hf⟩ := addFunctions_spec hnum (skiplist (skipInitialised ctors))
      (cachedNames file.text)
    refine ⟨hm ▸ hn, ?_⟩
    rw [hm, hf, hnil, hnames, hfuncs]
    exact keptFunctions_twice _ _ _

/-! ## Numbers -/

/-- The numbers in use are below `UINT_MAX`. -/
theorem getFunctionID_eq_uintMax_iff {m : FuncMap} (hm : m.Numbered) {skip : List CStr}
    {procs : List BPatchFunction} (hfuncs : m.funcs = keptFunctions skip procs)
    (hloop : procs.length < 2 ^ 32) (n : CStr) : getFunctionID m n = uintMax ↔ n ∉ m.funcs := by
  have hlen : m.funcs.length ≤ procs.length := by
    rw [hfuncs, keptFunctions]
    refine Nat.le_trans length_insertAll_le ?_
    rw [List.length_nil, List.length_map, Nat.zero_add]
  rw [hm.getFunctionID_eq]
  by_cases hn : n ∈ m.funcs
  · have hi := List.idxOf_lt_length_iff.2 hn
    rw [if_pos hn]
    refine iff_of_false ?_ (fun h => h hn)
    show m.funcs.idxOf n % 2 ^ 32 ≠ 4294967295
    omega
  · rw [if_neg hn]
    exact iff_of_true rfl hn

theorem mem_keptFunctions {skip : List CStr} {procs : List BPatchFunction} {n : CStr} :
    n ∈ keptFunctions skip procs ↔ (∃ p ∈ procs, p.name = n) ∧ n ∉ skip := by
  rw [keptFunctions, mem_insertAll, List.mem_map]
  exact or_iff_right List.not_mem_nil

/-- One skip list was filled and the other not: a procedure in the list tells the maps apart. -/
theorem skips_eq_of_same_ids {procs : List BPatchFunction} (hloop : procs.length < 2 ^ 32)
    {b b' : Bool} {m m' : FuncMap} (hm : m.Numbered) (hm' : m'.Numbered)
    (hf : m.funcs = keptFunctions (skiplist b) procs)
    (hf' : m'.funcs = keptFunctions (skiplist b') procs)
    (hids : ∀ name, getFunctionID m name = getFunctionID m' name) {p : BPatchFunction}
    (hp : p ∈ procs) (hskip : p.name ∈ skiplist true) : b = b' := by
  have hmem : p.name ∈ m.funcs ↔ p.name ∈ m'.funcs := by
    rw [← not_iff_not, ← getFunctionID_eq_uintMax_iff hm hf hloop,
      ← getFunctionID_eq_uintMax_iff hm' hf' hloop, hids]
  rw [hf, hf', mem_keptFunctions, mem_keptFunctions] at hmem
  have hex : ∃ q ∈ procs, q.name = p.name := ⟨p, hp, rfl⟩
  have hno : p.name ∉ skiplist false := List.not_mem_nil
  cases b with
  | false =>
    cases b' with
    | false => rfl
    | true => exact absurd hskip (hmem.1 ⟨hex, hno⟩).2
  | true =>
    cases b' with
    | false => exact absurd hskip (hmem.2 ⟨hex, hno⟩).2
    | true => rfl

/-- Nothing is skipped when no procedure is in the list. -/
theorem keptFunctions_of_no_skip {procs : List BPatchFunction}
    (h : ∀ p ∈ procs, p.name ∉ skiplist true) (b : Bool) :
    keptFunctions (skiplist b) procs = keptFunctions (skiplist false) procs := by
  refine insertAll_congr fun n hn => ?_
  obtain ⟨p, hp, rfl⟩ := List.mem_map.1 hn
  cases b with
  | false => exact Iff.rfl
  | true => exact iff_of_false (h p hp) List.not_mem_nil

/-- **The numbers depend on the skip list only.** Two maps of one ELF image, however each was
made and filled, agree on every number exactly when the skip list was filled for both or for
neither, or no procedure has a name that is in it. (`hloop`: the loop of `loadFromELF` counts in
32 bits, and a longer list is never loaded.) -/
theorem same_ids_iff (procedures : CStr → List BPatchFunction) (image : CStr)
    (hp : Cacheable (procedures image)) (hloop : (procedures image).length < 2 ^ 32) (f f' : Fill)
    (m m' : FuncMap) (h : f.Gives procedures image m) (h' : f'.Gives procedures image m') :
    (∀ name, getFunctionID m name = getFunctionID m' name) ↔
      f.skips = f'.skips ∨ ∀ p ∈ procedures image, p.name ∉ skiplist true := by
  obtain ⟨hm, hf⟩ := h.funcs hp
  obtain ⟨hm', hf'⟩ := h'.funcs hp
  constructor
  · intro hids
    by_cases hskip : ∀ p ∈ procedures image, p.name ∉ skiplist true
    · exact .inr hskip
    · obtain ⟨p, hp⟩ := not_forall.1 hskip
      obtain ⟨hp, hmem⟩ := not_forall.1 hp
      exact .inl (skips_eq_of_same_ids hloop hm hm' hf hf' hids hp (not_not.1 hmem))
  · rintro (heq | hskip)
    · exact hm.getFunctionID_congr hm' (by rw [hf, hf', heq])
    · refine hm.getFunctionID_congr hm' ?_
      rw [hf, hf', keptFunctions_of_no_skip hskip, keptFunctions_of_no_skip hskip f'.skips]

/-! ## An ELF with an `_init` -/

def initAndMain (_ : CStr) : List BPatchFunction :=
  [⟨"_init".toList, 0, false, 0⟩, ⟨"main".toList, 2, true, 1⟩]

theorem cacheable_initAndMain : Cacheable (initAndMain []) := ⟨by decide, by decide⟩

/-- A map that is made first thing in a run of the tool, and filled from the ELF. -/
theorem gives_first (c : Ctor) (hobj : c.hasNoObject = true) :
    ∃ m, (Fill.elf [c] c).Gives initAndMain [] m := by
  obtain ⟨name, wrap, hmake⟩ := c.make_eq
  have hfile : (Fs.empty.write c.path [] .elf).files c.path = some ⟨[], 0, .elf⟩ :=
    Fs.write_self ..
  have hok := (loadFromELF_spec_ofName initAndMain (skiplist (skipInitialised [c])) wrap name
    .granting hfile).2.2 rfl
  rw [← hmake] at hok
  exact ⟨_, _, List.mem_singleton.2 rfl, hobj, .granting, _, _, hfile, rfl, Prod.ext hok rfl⟩

theorem same_ids_iff_named : ∃ m m',
    (Fill.elf [.named "a".toList "/bin/a".toList false] (.named "a".toList "/bin/a".toList false)).Gives
      initAndMain [] m ∧
    (Fill.elf [.ofPath "/bin/a".toList false] (.ofPath "/bin/a".toList false)).Gives
      initAndMain [] m' ∧
    ((∀ name, getFunctionID m name = getFunctionID m' name) ↔
      true = false ∨ ∀ p ∈ initAndMain [], p.name ∉ skiplist true) := by
  obtain ⟨m, h⟩ := gives_first (.named "a".toList "/bin/a".toList false) rfl
  obtain ⟨m', h'⟩ := gives_first (.ofPath "/bin/a".toList false) rfl
  exact ⟨m, m', h, h', same_ids_iff initAndMain [] cacheable_initAndMain (by decide) _ _ m m' h h'⟩

/-- The map of a path numbers `_init`, the map of a name and a path does not. -/
theorem ids_differ : ∃ f f' m m', Cacheable (initAndMain []) ∧ (initAndMain []).length < 2 ^ 32 ∧
    Fill.Gives initAndMain [] f m ∧ Fill.Gives initAndMain [] f' m' ∧
    ¬ ∀ name, getFunctionID m name = getFunctionID m' name := by
  obtain ⟨m, h⟩ := gives_first (.named "a".toList "/bin/a".toList false) rfl
  obtain ⟨m', h'⟩ := gives_first (.ofPath "/bin/a".toList false) rfl
  obtain ⟨hm, hf⟩ := h.funcs cacheable_initAndMain
  obtain ⟨hm', hf'⟩ := h'.funcs cacheable_initAndMain
  refine ⟨_, _, m, m', cacheable_initAndMain, by decide, h, h', fun hids => ?_⟩
  have heq := skips_eq_of_same_ids (by decide) hm hm' hf hf' hids List.mem_cons_self (by decide)
  exact absurd heq (by decide)

end Lprofile.Utils
