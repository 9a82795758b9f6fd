import Lprofile.Utils.Count
import Lprofile.Utils.Wrapper

/-!
# Where the wrapper libraries come from

A load with wrappers compiles them into a library that is named after the base name of
the object. The objects of one mutatee are loaded one after the other, so that of two
objects of one base name the later library is what stays: `owner` is the object a
library is of in the end (`loadTargets_lib`).

Cache files are in the same directory; an object whose own name starts like that of
a wrapper file could have its cache written over a library, and is excluded.
-/

namespace Lprofile.Utils

open Lprofile.Lib Lprofile.Probe

/-! ## What a load writes -/

section

variable {skip : List CStr} {env : LoadEnv}

theorem addProcedure_files (func : BPatchFunction) (m : FuncMap) (fs : Fs) {p : CStr}
    (hp : p ≠ getWrapFilePath m.elfName .src) :
    (addProcedure skip env func m fs).2.2.files p = fs.files p := by
  have hname := (addFunction_frame skip m func.name).1
  unfold addProcedure
  dsimp only
  split
  · unfold generateWrapper
    dsimp only
    split
    · rfl
    · rw [hname]
      exact Fs.write_of_ne hp ..
  · rfl

theorem addProcedure_elfName (func : BPatchFunction) (m : FuncMap) (fs : Fs) :
    (addProcedure skip env func m fs).2.1.elfName = m.elfName :=
  (addProcedure_spec skip env func m fs).1.elfName.trans (addFunction_frame skip m func.name).1

/-- The loop writes the wrapper source only. -/
theorem addProcedures_files : ∀ (procs : List BPatchFunction) (m : FuncMap) (fs : Fs) {p : CStr},
    p ≠ getWrapFilePath m.elfName .src →
    (addProcedures skip env procs m fs).2.2.files p = fs.files p
  | [], _, _, _, _ => rfl
  | func :: procs, m, fs, p, hp => by
    rw [addProcedures_cons]
    dsimp only
    split
    · rw [addProcedures_files procs _ _ (by rwa [addProcedure_elfName])]
      exact addProcedure_files func m fs hp
    · exact addProcedure_files func m fs hp

theorem compileWrapper_files (m : FuncMap) (fs : Fs) {p : CStr}
    (hp : p ≠ getWrapFilePath m.elfName .lib) :
    (compileWrapper env m fs).2.2.files p = fs.files p := by
  unfold compileWrapper
  split
  · rfl
  · dsimp only
    split
    · exact Fs.write_of_ne hp ..
    · rfl

theorem compileWrapper_lib {m : FuncMap} {fs : Fs} {src : CStr} (hm : m.wrapper = some src)
    (hok : (compileWrapper env m fs).1 = true) :
    ∃ lib file, env.gcc src = some lib ∧ file.text = lib ∧
      (compileWrapper env m fs).2.2.files (getWrapFilePath m.elfName .lib) = some file := by
  simp only [compileWrapper, hm] at hok ⊢
  split at hok
  · rename_i lib hlib
    exact ⟨lib, _, hlib, rfl, Fs.write_self ..⟩
  · cases hok

theorem updateCache_files (image : CStr) (m : FuncMap) (fs : Fs) {p : CStr}
    (hp : p ≠ cachefile m) : (updateCache env image m fs).2.files p = fs.files p := by
  rcases updateCache_cases env image m fs with ⟨-, h, -⟩ | ⟨-, h⟩
  · rw [h]
  · rw [h]
    exact Fs.write_of_ne hp ..

end

/-! ## Paths -/

/-- They end differently. -/
theorem lib_ne_src (elf elf' : CStr) : getWrapFilePath elf .lib ≠ getWrapFilePath elf' .src := by
  intro h
  have hlast := congrArg List.getLast? h
  simp only [getWrapFilePath] at hlast
  rw [List.getLast?_append_of_ne_nil _ (by decide), List.getLast?_append_of_ne_nil _ (by decide)]
    at hlast
  exact absurd hlast (by decide)

/-- An object that is not named like a wrapper file has its cache file to itself. -/
theorem wrapFile_ne_cache {elf name : CStr} (hplain : ¬ funcmapPrefix <+: name) (file : WrapFile) :
    getWrapFilePath elf file ≠ funcmapDir ++ name := by
  intro h
  cases file with
  | src =>
    rw [getWrapFilePath, List.append_assoc, List.append_assoc] at h
    exact hplain ⟨_, List.append_cancel_left h⟩
  | lib =>
    rw [getWrapFilePath, List.append_assoc, List.append_assoc] at h
    exact hplain ⟨_, List.append_cancel_left h⟩

theorem lib_injective {elf elf' : CStr} (h : getWrapFilePath elf .lib = getWrapFilePath elf' .lib) :
    elf = elf' :=
  List.append_cancel_left (List.append_cancel_right h)

/-! ## One object -/

/-- After the loop: the library of this name is made when there is a function. -/
theorem finishELF_lib {env : LoadEnv} {image : CStr} {a : Bool × FuncMap × Fs}
    {kept : List BPatchFunction} (hplain : ¬ funcmapPrefix <+: a.2.1.elfName)
    (hloop : WrapLoop a.2.1 a.2.2 kept) (hok : (finishELF env image a).1 = true) :
    (∀ name, name ≠ a.2.1.elfName ∨ kept = [] →
      (finishELF env image a).2.2.files (getWrapFilePath name .lib) =
        a.2.2.files (getWrapFilePath name .lib)) ∧
      (kept ≠ [] → ∃ lib file, env.gcc (sourceText kept) = some lib ∧ file.text = lib ∧
        (finishELF env image a).2.2.files (getWrapFilePath a.2.1.elfName .lib) = some file) := by
  have hadd := finishELF_ok hok
  unfold finishELF at hok ⊢
  simp only [hadd, Bool.not_true, Bool.false_eq_true, ↓reduceIte, hloop.wrap, Bool.true_and,
    decide_eq_true_eq] at hok ⊢
  have hfuncs : a.2.1.funcs.length = kept.length := by rw [hloop.funcs, List.length_map]
  by_cases hkept : kept = []
  · have hzero : ¬ 0 < a.2.1.funcs.length := by simp [hfuncs, hkept]
    simp only [if_neg hzero, hadd, Bool.not_true, Bool.false_eq_true, ↓reduceIte]
    refine ⟨fun name _ => ?_, fun h => absurd hkept h⟩
    exact updateCache_files image _ _ (wrapFile_ne_cache hplain .lib)
  · have hpos : 0 < a.2.1.funcs.length := hfuncs ▸ List.length_pos_of_ne_nil hkept
    have htext : a.2.1.wrapper = some (sourceText kept) := hloop.text.trans (if_neg hkept)
    obtain ⟨hsame, -, -⟩ := compileWrapper_spec env a.2.1 a.2.2
    simp only [if_pos hpos] at hok ⊢
    split at hok
    · rename_i hfail
      rw [hok] at hfail
      cases hfail
    · rename_i hgcc
      have hcok : (compileWrapper env a.2.1 a.2.2).1 = true := by simpa using hgcc
      have hcache : ∀ name, (updateCache env image (compileWrapper env a.2.1 a.2.2).2.1
          (compileWrapper env a.2.1 a.2.2).2.2).2.files (getWrapFilePath name .lib) =
            (compileWrapper env a.2.1 a.2.2).2.2.files (getWrapFilePath name .lib) := by
        intro name
        refine updateCache_files image _ _ ?_
        rw [hsame.cachefile]
        exact wrapFile_ne_cache hplain .lib
      simp only [hcache, if_neg hgcc]
      refine ⟨fun name hname => ?_, fun _ => compileWrapper_lib htext hcok⟩
      refine compileWrapper_files _ _ fun h => ?_
      exact (hname.resolve_right hkept) (lib_injective h)

/-- After the loop nothing is written but the library and the cache file. -/
theorem finishELF_files {env : LoadEnv} {image p : CStr} {r : Bool × FuncMap × Fs}
    (hp : p ≠ getWrapFilePath r.2.1.elfName .lib) :
    (finishELF env image r).2.2.files p = r.2.2.files p ∨
      r.1 = true ∧ p = cachefile r.2.1 ∧ (finishELF env image r).2.2.files p =
        some ⟨cacheText r.2.1.funcs, r.2.2.now, .cache image⟩ := by
  unfold finishELF
  cases hr : r.1 with
  | false => exact .inl rfl
  | true =>
    obtain ⟨hsame, hwraps, -⟩ := compileWrappers_spec env hr
    have hfiles : (if (r.2.1.isWrap && decide (0 < r.2.1.funcs.length)) = true then
        compileWrapper env r.2.1 r.2.2 else r).2.2.files p = r.2.2.files p := by
      split
      · exact compileWrapper_files _ _ hp
      · rfl
    simp only [Bool.not_true, Bool.false_eq_true, ↓reduceIte]
    generalize (if (r.2.1.isWrap && decide (0 < r.2.1.funcs.length)) = true then
      compileWrapper env r.2.1 r.2.2 else r) = c at hsame hwraps hfiles ⊢
    cases hc : c.1 with
    | false => exact .inl hfiles
    | true =>
      simp only [Bool.not_true, Bool.false_eq_true, ↓reduceIte]
      rcases updateCache_cases env image c.2.1 c.2.2 with ⟨-, hu, -⟩ | ⟨-, hu⟩
      · rw [hu]
        exact .inl hfiles
      · rw [hu]
        by_cases hown : p = cachefile c.2.1
        · subst hown
          refine .inr ⟨trivial, hsame.cachefile, ?_⟩
          rw [Fs.write_self, hsame.funcs, hwraps.now]
        · exact .inl ((Fs.write_of_ne hown ..).trans hfiles)

/-- A load writes its cache file, for the image it has read, and nothing else but wrapper files. -/
theorem loadFromELF_files {procedures : CStr → List BPatchFunction} {skip : List CStr}
    {env : LoadEnv} {wrap : Bool} {fs : Fs} {p q : CStr}
    (hsrc : p ≠ getWrapFilePath (baseName q) .src) (hlib : p ≠ getWrapFilePath (baseName q) .lib) :
    let fs' := (loadFromELF procedures skip env (FuncMap.ofPath q wrap) fs).2.2
    fs'.files p = fs.files p ∨ p = cachePath q ∧ ∃ elf, fs.files q = some elf ∧ fs'.files p =
      some ⟨cacheText (keptFunctions skip (procedures elf.text)), fs.now, .cache elf.text⟩ := by
  rcases loadFromELF_cases procedures skip env (FuncMap.ofPath q wrap) fs with
    ⟨hload, -⟩ | ⟨elf, helf, -, hload⟩
  · rw [hload]
    exact .inl rfl
  · rw [hload]
    obtain ⟨hname, -, hwraps, hfuncs, -⟩ := @addProcedures_spec skip env (procedures elf.text) _
      (FuncMap.numbered_ofPath q wrap) fs
    have hloop := @addProcedures_files skip env (procedures elf.text) (.ofPath q wrap) fs p hsrc
    generalize addProcedures skip env (procedures elf.text) (.ofPath q wrap) fs = r
      at hname hwraps hfuncs hloop ⊢
    have hbase : r.2.1.elfName = baseName q := hname
    rcases @finishELF_files env elf.text p r (by rwa [hbase]) with hfile | ⟨hr, hcache, hfile⟩
    · exact .inl (hfile.trans hloop)
    · rw [cachefile, hbase] at hcache
      rw [hfuncs hr, hwraps.now] at hfile
      exact .inr ⟨hcache, elf, helf, hfile⟩

/-- A load that succeeds leaves the libraries of other names alone. If it has a function to wrap, it
leaves under its own name what `gcc` makes of the source of its wrappers. -/
theorem loadFromELF_lib {procs : List BPatchFunction} {skip : List CStr}
    {env : LoadEnv} {path : CStr} {fs : Fs} (hplain : ¬ funcmapPrefix <+: baseName path)
    (hfew : procs.length < 2 ^ 32)
    (hok : (loadFromELF (fun _ => procs) skip env (FuncMap.ofPath path true) fs).1 = true) :
    let r := loadFromELF (fun _ => procs) skip env (FuncMap.ofPath path true) fs
    let kept := keptProcedures skip [] procs
    (∀ name, name ≠ baseName path ∨ kept = [] →
      r.2.2.files (getWrapFilePath name .lib) = fs.files (getWrapFilePath name .lib)) ∧
    (kept ≠ [] → ∃ lib file, env.gcc (sourceText kept) = some lib ∧ file.text = lib ∧
      r.2.2.files (getWrapFilePath (baseName path) .lib) = some file) := by
  intro r kept
  rcases loadFromELF_cases (fun _ => procs) skip env (FuncMap.ofPath path true) fs with
    ⟨hload, -⟩ | ⟨elf, -, -, hload⟩
  · rw [hload] at hok
    cases hok
  have hfiles := fun p => @addProcedures_files skip env procs (FuncMap.ofPath path true) fs p
  have hwrapper := @addProcedures_wrapLoop skip env procs _ _ _
    (wrapLoop_ofName (baseName path) path fs) (by rwa [List.length_nil, Nat.zero_add])
  rw [show r = _ from hload]
  rw [hload] at hok
  have hadd := finishELF_ok hok
  obtain ⟨hname, hloop⟩ := hwrapper hadd
  change (addProcedures skip env procs (FuncMap.ofPath path true) fs).2.1.elfName =
    baseName path at hname
  change WrapLoop (addProcedures skip env procs (FuncMap.ofPath path true) fs).2.1
    (addProcedures skip env procs (FuncMap.ofPath path true) fs).2.2 kept at hloop
  generalize addProcedures skip env procs (FuncMap.ofPath path true) fs = a
    at hok hname hfiles hloop ⊢
  obtain ⟨hothers, hown⟩ := finishELF_lib (by rwa [hname]) hloop hok
  rw [hname] at hothers hown
  exact ⟨fun name h => (hothers name h).trans (hfiles _ (lib_ne_src _ _)), hown⟩

theorem keptProcedures_eq_nil {skip : List CStr} {procs : List BPatchFunction} :
    keptProcedures skip [] procs = [] ↔ keptFunctions skip procs = [] := by
  have hnames : (keptProcedures skip [] procs).map (·.name) = keptFunctions skip procs :=
    names_keptProcedures skip [] procs
  rw [← hnames, List.map_eq_nil_iff]

/-! ## All objects -/

/-- The object whose library is under a name in the end: the last one of this name that has a
function to wrap. -/
def owner (skip : List CStr) (objs : List BPatchObject) (name : CStr) : Option BPatchObject :=
  (objs.filter fun o =>
    decide (baseName o.pathName = name ∧ keptFunctions skip o.functions ≠ [])).getLast?

theorem owner_cons (skip : List CStr) (o : BPatchObject) (objs : List BPatchObject) (name : CStr) :
    owner skip (o :: objs) name = (owner skip objs name).or
      (if baseName o.pathName = name ∧ keptFunctions skip o.functions ≠ [] then some o
        else none) := by
  unfold owner
  rw [List.filter_cons]
  split
  · rename_i h
    rw [if_pos (of_decide_eq_true h), List.getLast?_cons]
    cases (objs.filter _).getLast? <;> rfl
  · rename_i h
    rw [if_neg fun h' => h (decide_eq_true h'), Option.or_none]

theorem mem_of_owner {skip : List CStr} {objs : List BPatchObject} {name : CStr} {o : BPatchObject}
    (h : owner skip objs name = some o) :
    o ∈ objs ∧ baseName o.pathName = name ∧ keptFunctions skip o.functions ≠ [] := by
  obtain ⟨hmem, hp⟩ := List.mem_filter.1 (List.mem_of_getLast? h)
  exact ⟨hmem, of_decide_eq_true hp⟩

/-- An object with a function to wrap has a library in the end, its own or a later one. -/
theorem isSome_owner {skip : List CStr} {objs : List BPatchObject} {o : BPatchObject}
    (ho : o ∈ objs) (hkept : keptFunctions skip o.functions ≠ []) :
    (owner skip objs (baseName o.pathName)).isSome := by
  rw [owner, List.getLast?_isSome]
  exact List.ne_nil_of_mem (List.mem_filter.2 ⟨ho, decide_eq_true ⟨rfl, hkept⟩⟩)

/-- **The libraries after a load of all objects**: the one of each name is that of its owner, or
what was there. -/
theorem loadTargets_lib {findFunction : BPatchObject → CStr → List BPatchFunction}
    {skip : List CStr} {env : BPatchObject → LoadEnv} {objs : List BPatchObject} {c : CountUtil}
    {fs : Fs} (hplain : ∀ o ∈ objs, ¬ funcmapPrefix <+: baseName o.pathName)
    (hfew : ∀ o ∈ objs, o.functions.length < 2 ^ 32)
    (hok : (loadTargets findFunction skip env true objs c fs).1 = true) (name : CStr) :
    let files := (loadTargets findFunction skip env true objs c fs).2.2.files
    match owner skip objs name with
    | none => files (getWrapFilePath name .lib) = fs.files (getWrapFilePath name .lib)
    | some o => ∃ lib file,
        (env o).gcc (sourceText (keptProcedures skip [] o.functions)) = some lib ∧
        file.text = lib ∧ files (getWrapFilePath name .lib) = some file := by
  induction objs generalizing c fs with
  | nil => rfl
  | cons o objs ih =>
    obtain ⟨hplain, hplains⟩ := List.forall_mem_cons.1 hplain
    obtain ⟨hfew, hfews⟩ := List.forall_mem_cons.1 hfew
    simp only [loadTargets, FuncMap.load_force] at hok ⊢
    split at hok
    · rename_i hload
      rw [if_pos hload]
      have hrest := ih hplains hfews hok
      obtain ⟨hothers, hown⟩ := loadFromELF_lib hplain hfew hload
      rw [owner_cons]
      cases howner : owner skip objs name with
      | some o' =>
        rw [howner] at hrest
        exact hrest
      | none =>
        rw [howner] at hrest
        by_cases hmine : baseName o.pathName = name ∧ keptFunctions skip o.functions ≠ []
        · rw [if_pos hmine, Option.none_or]
          dsimp only at hrest ⊢
          rw [hrest, ← hmine.1]
          exact hown fun h => hmine.2 (keptProcedures_eq_nil.1 h)
        · rw [if_neg hmine, Option.none_or]
          dsimp only at hrest ⊢
          rw [hrest]
          refine hothers name ?_
          by_cases hn : name = baseName o.pathName
          · refine .inr (keptProcedures_eq_nil.2 ?_)
            by_contra hne
            exact hmine ⟨hn.symm, hne⟩
          · exact .inl hn
    · cases hok

end Lprofile.Utils
