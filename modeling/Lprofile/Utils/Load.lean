import Lprofile.Utils.Cache

/-!
# What a load does

`keptFunctions` is the list of names a map read from an ELF image holds. A load
from the ELF either fails or gives this list (`loadFromELF_spec`), and writes
nothing but wrapper files and, last, the cache file of the base name.
-/

namespace Lprofile.Utils

open Lprofile.Lib

/-- The names of the procedures in order, without repetitions and without the skipped ones. -/
def keptFunctions (skip : List CStr) (procs : List BPatchFunction) : List CStr :=
  insertAll skip [] (procs.map (·.name))

theorem nodup_keptFunctions (skip : List CStr) (procs : List BPatchFunction) :
    (keptFunctions skip procs).Nodup :=
  nodup_insertAll List.nodup_nil

theorem exists_of_mem_keptFunctions {skip : List CStr} {procs : List BPatchFunction} {n : CStr}
    (h : n ∈ keptFunctions skip procs) : (∃ f ∈ procs, f.name = n) ∧ n ∉ skip := by
  rw [keptFunctions, mem_insertAll] at h
  rcases h with h | ⟨h, hd⟩
  · cases h
  · obtain ⟨f, hf, rfl⟩ := List.mem_map.1 h
    exact ⟨⟨f, hf, rfl⟩, hd⟩

/-! ## Wrapper files -/

/-- `fs'` is `fs` after some wrapper files were written. -/
structure Wraps (fs fs' : Fs) : Prop where
  now : fs'.now = fs.now
  files : ∀ p, fs'.files p = fs.files p ∨ ∃ f, fs'.files p = some f ∧ f.origin = .wrapper

theorem Wraps.refl (fs : Fs) : Wraps fs fs := ⟨rfl, fun _ => .inl rfl⟩

theorem Wraps.trans {fs fs' fs'' : Fs} (h : Wraps fs fs') (h' : Wraps fs' fs'') :
    Wraps fs fs'' := by
  refine ⟨h'.now.trans h.now, fun p => ?_⟩
  rcases h'.files p with e | hw
  · rw [e]
    exact h.files p
  · exact .inr hw

theorem Fs.write_self (fs : Fs) (path text : CStr) (origin : Origin) :
    (fs.write path text origin).files path = some ⟨text, fs.now, origin⟩ :=
  Function.update_self ..

theorem Fs.write_of_ne {path p : CStr} (h : p ≠ path) (fs : Fs) (text : CStr) (origin : Origin) :
    (fs.write path text origin).files p = fs.files p :=
  Function.update_of_ne h ..

theorem wraps_write (fs : Fs) (path text : CStr) : Wraps fs (fs.write path text .wrapper) := by
  refine ⟨rfl, fun p => ?_⟩
  by_cases hp : p = path
  · subst hp
    exact .inr ⟨_, fs.write_self .., rfl⟩
  · exact .inl (Fs.write_of_ne hp ..)

/-- The map keeps its functions and its ELF. -/
structure SameFuncs (m m' : FuncMap) : Prop where
  elfName : m'.elfName = m.elfName
  funcs : m'.funcs = m.funcs
  funcIndices : m'.funcIndices = m.funcIndices

theorem SameFuncs.numbered {m m' : FuncMap} (h : SameFuncs m m') (hm : m.Numbered) :
    m'.Numbered :=
  ⟨h.funcs ▸ hm.nodup, fun n => by rw [h.funcIndices, h.funcs, hm.indices]⟩

theorem SameFuncs.cachefile {m m' : FuncMap} (h : SameFuncs m m') :
    Utils.cachefile m' = Utils.cachefile m := by
  rw [Utils.cachefile, h.elfName, Utils.cachefile]

theorem generateWrapper_spec (env : LoadEnv) (m : FuncMap) (func : BPatchFunction) (index : Nat)
    (fs : Fs) :
    SameFuncs m (generateWrapper env m func index fs).2.1 ∧
      Wraps fs (generateWrapper env m func index fs).2.2 ∧
      (env.openWrapper = true → (generateWrapper env m func index fs).1 = true) := by
  unfold generateWrapper
  cases hw : m.wrapper with
  | some text => exact ⟨⟨rfl, rfl, rfl⟩, wraps_write .., fun _ => rfl⟩
  | none =>
    cases ho : env.openWrapper with
    | true => exact ⟨⟨rfl, rfl, rfl⟩, wraps_write .., fun _ => rfl⟩
    | false => exact ⟨⟨rfl, rfl, rfl⟩, .refl fs, fun h => absurd h (by decide)⟩

theorem compileWrapper_spec (env : LoadEnv) (m : FuncMap) (fs : Fs) :
    SameFuncs m (compileWrapper env m fs).2.1 ∧ Wraps fs (compileWrapper env m fs).2.2 ∧
      ((∀ src, m.wrapper = some src → (env.gcc src).isSome) →
        (compileWrapper env m fs).1 = true) := by
  unfold compileWrapper
  cases hw : m.wrapper with
  | none => exact ⟨⟨rfl, rfl, rfl⟩, .refl fs, fun _ => rfl⟩
  | some text =>
    cases hg : env.gcc text with
    | some lib =>
      simp only [hg]
      exact ⟨⟨rfl, rfl, rfl⟩, wraps_write .., fun _ => trivial⟩
    | none =>
      simp only [hg]
      exact ⟨⟨rfl, rfl, rfl⟩, .refl fs, fun h => absurd (h text rfl) (by simp [hg])⟩

/-! ## The procedures -/

/-- One round of the loop: the function is added, and its wrapper is written or not. -/
def addProcedure (skip : List CStr) (env : LoadEnv) (func : BPatchFunction) (m : FuncMap)
    (fs : Fs) : Bool × FuncMap × Fs :=
  let r := addFunction skip m func.name
  if m.isWrap && r.1 != Probe.uintMax then generateWrapper env r.2 func r.1 fs else (true, r.2, fs)

theorem addProcedures_cons (skip : List CStr) (env : LoadEnv) (func : BPatchFunction)
    (procs : List BPatchFunction) (m : FuncMap) (fs : Fs) :
    addProcedures skip env (func :: procs) m fs =
      let w := addProcedure skip env func m fs
      if w.1 then addProcedures skip env procs w.2.1 w.2.2 else w :=
  rfl

theorem addProcedures_append (skip : List CStr) (env : LoadEnv) (procs procs' : List BPatchFunction)
    (m : FuncMap) (fs : Fs) :
    addProcedures skip env (procs ++ procs') m fs =
      let r := addProcedures skip env procs m fs
      if r.1 then addProcedures skip env procs' r.2.1 r.2.2 else r := by
  induction procs generalizing m fs with
  | nil => rfl
  | cons func procs ih =>
    rw [List.cons_append, addProcedures_cons, addProcedures_cons]
    dsimp only
    split
    · exact ih _ _
    · rfl

theorem addProcedure_spec (skip : List CStr) (env : LoadEnv) (func : BPatchFunction) (m : FuncMap)
    (fs : Fs) :
    let w := addProcedure skip env func m fs
    SameFuncs (addFunction skip m func.name).2 w.2.1 ∧ Wraps fs w.2.2 ∧
      (env.openWrapper = true → w.1 = true) := by
  unfold addProcedure
  dsimp only
  split
  · exact generateWrapper_spec ..
  · exact ⟨⟨rfl, rfl, rfl⟩, .refl fs, fun _ => rfl⟩

/-- A loop that stops at the first wrapper it cannot write. -/
theorem addProcedures_spec {skip : List CStr} {env : LoadEnv} (procs : List BPatchFunction)
    {m : FuncMap} (hm : m.Numbered) (fs : Fs) :
    let r := addProcedures skip env procs m fs
    r.2.1.elfName = m.elfName ∧ r.2.1.Numbered ∧ Wraps fs r.2.2 ∧
      (r.1 = true → r.2.1.funcs = insertAll skip m.funcs (procs.map (·.name))) ∧
      (env.openWrapper = true → r.1 = true) := by
  induction procs generalizing m fs with
  | nil => exact ⟨rfl, hm, .refl fs, fun _ => rfl, fun _ => rfl⟩
  | cons func procs ih =>
    have hadd := addFunction_numbered hm skip func.name
    have hfuncs := addFunction_funcs hm skip func.name
    have hname := (addFunction_frame skip m func.name).1
    obtain ⟨hsame, hwraps, hopen⟩ := addProcedure_spec skip env func m fs
    rw [addProcedures_cons]
    dsimp only
    generalize addProcedure skip env func m fs = w at hsame hwraps hopen ⊢
    by_cases h1 : w.1 = true
    · obtain ⟨he, hn, hws, hf, ho⟩ := ih (hsame.numbered hadd) w.2.2
      rw [if_pos h1]
      refine ⟨he.trans (hsame.elfName.trans hname), hn, hwraps.trans hws, fun h => ?_, ho⟩
      rw [hf h, hsame.funcs, hfuncs]
      rfl
    · rw [if_neg h1]
      exact ⟨hsame.elfName.trans hname, hsame.numbered hadd, hwraps, fun h => absurd h h1, hopen⟩

/-! ## From the ELF -/

/-- The wrappers are compiled, when there are any. -/
theorem compileWrappers_spec (env : LoadEnv) {r : Bool × FuncMap × Fs} (hr : r.1 = true) :
    let c := if r.2.1.isWrap && decide (0 < r.2.1.funcs.length) then
      compileWrapper env r.2.1 r.2.2 else r
    SameFuncs r.2.1 c.2.1 ∧ Wraps r.2.2 c.2.2 ∧
      ((∀ src, r.2.1.wrapper = some src → (env.gcc src).isSome) → c.1 = true) := by
  dsimp only
  split
  · exact compileWrapper_spec ..
  · exact ⟨⟨rfl, rfl, rfl⟩, .refl _, fun _ => hr⟩

theorem updateCache_cases (env : LoadEnv) (image : CStr) (m : FuncMap) (fs : Fs) :
    ((updateCache env image m fs).1 = false ∧ (updateCache env image m fs).2 = fs ∧
      env ≠ .granting) ∨
    ((updateCache env image m fs).1 = true ∧ (updateCache env image m fs).2 =
      fs.write (cachefile m) (cacheText m.funcs) (.cache image)) := by
  unfold updateCache
  split
  · rename_i h
    exact .inl ⟨rfl, rfl, fun e => (by rw [e] at h; cases h)⟩
  · split
    · rename_i h
      exact .inl ⟨rfl, rfl, fun e => (by rw [e] at h; cases h)⟩
    · exact .inr ⟨rfl, rfl⟩

/-- What `loadFromELF` does after its loop. -/
def finishELF (env : LoadEnv) (image : CStr) (r : Bool × FuncMap × Fs) : Bool × FuncMap × Fs :=
  if !r.1 then r
  else
    let c := if r.2.1.isWrap && 0 < r.2.1.funcs.length then compileWrapper env r.2.1 r.2.2 else r
    if !c.1 then c
    else
      let u := updateCache env image c.2.1 c.2.2
      (u.1, c.2.1, u.2)

/-- It leaves the functions alone, and succeeds only with the cache written. -/
theorem finishELF_spec (env : LoadEnv) (image : CStr) (r : Bool × FuncMap × Fs) :
    let t := finishELF env image r
    SameFuncs r.2.1 t.2.1 ∧ (env = .granting → r.1 = true → t.1 = true) ∧
      ∃ fs', Wraps r.2.2 fs' ∧ ((t.1 = false ∧ t.2.2 = fs') ∨
        (r.1 = true ∧ t.1 = true ∧
          t.2.2 = fs'.write (cachefile r.2.1) (cacheText r.2.1.funcs) (.cache image))) := by
  unfold finishELF
  by_cases hr : r.1 = true
  · obtain ⟨hsame, hwraps, hgcc⟩ := compileWrappers_spec env hr
    simp only [hr, Bool.not_true, Bool.false_eq_true, ↓reduceIte]
    generalize (if (r.2.1.isWrap && decide (0 < r.2.1.funcs.length)) = true then
      compileWrapper env r.2.1 r.2.2 else r) = c at hsame hwraps hgcc ⊢
    by_cases hc : c.1 = true
    · simp only [hc, Bool.not_true, Bool.false_eq_true, ↓reduceIte]
      rw [← hsame.cachefile, ← hsame.funcs]
      rcases updateCache_cases env image c.2.1 c.2.2 with ⟨h1, h2, h3⟩ | ⟨h1, h2⟩
      · exact ⟨hsame, fun e => absurd e h3, c.2.2, hwraps, .inl ⟨h1, h2⟩⟩
      · exact ⟨hsame, fun _ _ => h1, c.2.2, hwraps, .inr ⟨trivial, h1, h2⟩⟩
    · simp only [Bool.not_eq_true] at hc
      simp only [hc, Bool.not_false, ↓reduceIte]
      refine ⟨hsame, fun e => ?_, c.2.2, hwraps, .inl ⟨trivial, rfl⟩⟩
      rw [hgcc fun _ _ => by rw [e]; rfl] at hc
      cases hc
  · simp only [Bool.not_eq_true] at hr
    simp only [hr, Bool.not_false, ↓reduceIte]
    exact ⟨⟨rfl, rfl, rfl⟩, fun _ h => (by cases h), r.2.2, .refl _, .inl ⟨trivial, rfl⟩⟩

theorem finishELF_ok {env : LoadEnv} {image : CStr} {r : Bool × FuncMap × Fs}
    (h : (finishELF env image r).1 = true) : r.1 = true := by
  obtain ⟨-, -, fs', -, ⟨h1, -⟩ | ⟨hr, -⟩⟩ := finishELF_spec env image r
  · rw [h] at h1
    cases h1
  · exact hr

section

variable (procedures : CStr → List BPatchFunction) (skip : List CStr) {path : CStr} (wrap : Bool)

/-- The file `loadFromELF` leaves under the base name of `path`. -/
abbrev cachePath (path : CStr) : CStr := funcmapDir ++ baseName path

/-- `loadFromELF` gives up at once, or runs its loop and finishes. -/
theorem loadFromELF_cases (env : LoadEnv) (m : FuncMap) (fs : Fs) :
    (loadFromELF procedures skip env m fs = (false, m, fs) ∧
      (fs.files m.elfPath = none ∨ (!env.openBinary || !env.getProcedures) = true)) ∨
    ∃ elf, fs.files m.elfPath = some elf ∧ (!env.openBinary || !env.getProcedures) = false ∧
      loadFromELF procedures skip env m fs =
        finishELF env elf.text (addProcedures skip env (procedures elf.text) m fs) := by
  unfold loadFromELF
  cases helf : fs.files m.elfPath with
  | none => exact .inl ⟨rfl, .inl rfl⟩
  | some elf =>
    dsimp only
    cases hb : !env.openBinary || !env.getProcedures with
    | true => exact .inl ⟨rfl, .inr rfl⟩
    | false => exact .inr ⟨elf, rfl, rfl, rfl⟩

theorem loadFromELF_spec_ofName (name : CStr) (env : LoadEnv) {fs : Fs} {elf : File}
    (helf : fs.files path = some elf) :
    let r := loadFromELF procedures skip env (FuncMap.ofName name path wrap) fs
    (r.1 = true → r.2.1.Numbered ∧ r.2.1.funcs = keptFunctions skip (procedures elf.text)) ∧
      (∃ fs', Wraps fs fs' ∧ (r.2.2 = fs' ∨
        r.2.2 = fs'.write (funcmapDir ++ name) (cacheText (keptFunctions skip (procedures elf.text)))
          (.cache elf.text))) ∧
      (env = .granting → r.1 = true) := by
  have hpath : (FuncMap.ofName name path wrap).elfPath = path := rfl
  rcases loadFromELF_cases procedures skip env (FuncMap.ofName name path wrap) fs with
    ⟨hload, hno⟩ | ⟨elf', helf', -, hload⟩
  · rw [hload]
    refine ⟨fun h => (by cases h), ⟨fs, .refl fs, .inl rfl⟩, fun e => ?_⟩
    rw [hpath, helf, e] at hno
    rcases hno with h | h
    · cases h
    · cases h
  · rw [hpath, helf] at helf'
    cases helf'
    rw [hload]
    obtain ⟨he, hn, hw, hf, ho⟩ := @addProcedures_spec skip env (procedures elf.text) _
      (FuncMap.numbered_ofName name path wrap) fs
    generalize addProcedures skip env (procedures elf.text) (FuncMap.ofName name path wrap) fs = r
      at he hn hw hf ho
    have hkept : r.1 = true → r.2.1.funcs = keptFunctions skip (procedures elf.text) := hf
    have hcache : cachefile r.2.1 = funcmapDir ++ name := by
      rw [cachefile, he]
      rfl
    obtain ⟨hsame, hgrant, fs', hw', hcase⟩ := finishELF_spec env elf.text r
    refine ⟨fun h => ?_, ⟨fs', hw.trans hw', ?_⟩, fun e => hgrant e (ho (by rw [e]; rfl))⟩
    · exact ⟨hsame.numbered hn, by rw [hsame.funcs, hkept (finishELF_ok h)]⟩
    · rcases hcase with ⟨-, h2⟩ | ⟨hr, -, h2⟩
      · exact .inl h2
      · rw [h2, hcache, hkept hr]
        exact .inr rfl

theorem loadFromELF_spec (env : LoadEnv) {fs : Fs} {elf : File} (helf : fs.files path = some elf) :
    let r := loadFromELF procedures skip env (FuncMap.ofPath path wrap) fs
    (r.1 = true → r.2.1.Numbered ∧ r.2.1.funcs = keptFunctions skip (procedures elf.text)) ∧
      (∃ fs', Wraps fs fs' ∧ (r.2.2 = fs' ∨
        r.2.2 = fs'.write (cachePath path) (cacheText (keptFunctions skip (procedures elf.text)))
          (.cache elf.text))) ∧
      (env = .granting → r.1 = true) :=
  loadFromELF_spec_ofName procedures skip wrap (baseName path) env helf

/-- A load from the ELF that returns true ends with the lines of the map in its cache file. -/
theorem loadFromELF_cached (env : LoadEnv) (m : FuncMap) (fs : Fs)
    (hr : (loadFromELF procedures skip env m fs).1 = true) :
    let r := loadFromELF procedures skip env m fs
    ∃ file, r.2.2.files (cachefile r.2.1) = some file ∧ file.text = cacheText r.2.1.funcs := by
  rcases loadFromELF_cases procedures skip env m fs with ⟨hload, -⟩ | ⟨elf, -, -, hload⟩
  · rw [hload] at hr
    cases hr
  · rw [hload] at hr ⊢
    obtain ⟨hsame, -, fs', -, hcase⟩ :=
      finishELF_spec env elf.text (addProcedures skip env (procedures elf.text) m fs)
    rcases hcase with ⟨h1, -⟩ | ⟨-, -, h2⟩
    · rw [hr] at h1
      cases h1
    · dsimp only
      rw [h2, hsame.cachefile, hsame.funcs]
      exact ⟨_, Fs.write_self .., rfl⟩

theorem elfName_loadFromELF (env : LoadEnv) (path : CStr) (fs : Fs) :
    (loadFromELF procedures skip env (FuncMap.ofPath path wrap) fs).2.1.elfName =
      baseName path := by
  rcases loadFromELF_cases procedures skip env (FuncMap.ofPath path wrap) fs with
    ⟨hload, -⟩ | ⟨elf, -, -, hload⟩
  · rw [hload]
    rfl
  · rw [hload, (finishELF_spec env elf.text _).1.elfName]
    exact (addProcedures_spec _ (FuncMap.numbered_ofPath path wrap) fs).1

theorem FuncMap.load_force (env : LoadEnv) (m : FuncMap) (fs : Fs) :
    FuncMap.load procedures skip env m true fs = loadFromELF procedures skip env m fs :=
  if_pos rfl

variable {procedures skip wrap} in
/-- A load from the ELF that returns true has read it. -/
theorem loadFromELF_ok {env : LoadEnv} {fs : Fs}
    (hr : (loadFromELF procedures skip env (FuncMap.ofPath path wrap) fs).1 = true) :
    let r := loadFromELF procedures skip env (FuncMap.ofPath path wrap) fs
    ∃ elf, fs.files path = some elf ∧ r.2.1.Numbered ∧
      r.2.1.funcs = keptFunctions skip (procedures elf.text) := by
  rcases helf : fs.files path with _ | elf
  · have hpath : (FuncMap.ofPath path wrap).elfPath = path := rfl
    rw [loadFromELF, hpath, helf] at hr
    cases hr
  · exact ⟨elf, rfl, (loadFromELF_spec procedures skip wrap env helf).1 hr⟩

end

end Lprofile.Utils
