import Lprofile.Utils.Load

/-!
# Loading from an object

A map made from a `BPatch_object` is loaded from the modules of the object. The
loop over the procedures of module `i` takes `tmp_funcs[i]` in every round, where
the round's own procedure is meant, so that each module contributes one procedure,
its `i`-th (`diagonal`), and a module that does not have so many is indexed out
of range.

So the load covers the object exactly when the diagonal does: it stays in range,
and its names are those of the object, in the same order of first occurrence
(`load_covers_iff`). The map of a binary is always covered.
-/

namespace Lprofile.Utils

open Lprofile.Lib

/-- `tmp_funcs[index]` with `size` procedures in the module. -/
structure OutOfRange where
  index : Nat
  size : Nat
  deriving DecidableEq

/-- `rounds` more rounds of the loop over the procedures `tmpFuncs` of module `i`. -/
def addModule (skip : List CStr) (env : LoadEnv) (i : Nat) (tmpFuncs : List BPatchFunction) :
    Nat → FuncMap → Fs → Except OutOfRange (Bool × FuncMap × Fs)
  | 0, m, fs => .ok (true, m, fs)
  | rounds + 1, m, fs =>
    match tmpFuncs[i]? with
    | none => .error ⟨i, tmpFuncs.length⟩
    | some func =>
      let w := addProcedure skip env func m fs
      if w.1 then addModule skip env i tmpFuncs rounds w.2.1 w.2.2 else .ok w

/-- The loop over the modules, from module `i` on. -/
def addModules (skip : List CStr) (env : LoadEnv) :
    Nat → List (List BPatchFunction) → FuncMap → Fs → Except OutOfRange (Bool × FuncMap × Fs)
  | _, [], m, fs => .ok (true, m, fs)
  | i, tmpFuncs :: mods, m, fs =>
    match addModule skip env i tmpFuncs tmpFuncs.length m fs with
    | .error f => .error f
    | .ok r => if r.1 then addModules skip env (i + 1) mods r.2.1 r.2.2 else .ok r

/-- Where the functions come from: the binary at the map's path, or the modules of an object, which
was mapped from `image`. -/
inductive ElfSource where
  | binary (procedures : CStr → List BPatchFunction)
  | object (image : CStr) (mods : List (List BPatchFunction))

/-- Both branches of `loadFromELF`. -/
def ElfSource.load (skip : List CStr) (env : LoadEnv) (m : FuncMap) (fs : Fs) :
    ElfSource → Except OutOfRange (Bool × FuncMap × Fs)
  | .binary procedures => .ok (loadFromELF procedures skip env m fs)
  | .object image mods =>
    match addModules skip env 0 mods m fs with
    | .error f => .error f
    | .ok r => .ok (finishELF env image r)

/-- The procedures in the order of their enumeration, module by module. -/
def ElfSource.procedures (m : FuncMap) (fs : Fs) : ElfSource → List BPatchFunction
  | .binary procedures =>
    match fs.files m.elfPath with
    | none => []
    | some elf => procedures elf.text
  | .object _ mods => mods.flatten

/-- No procedure list is indexed out of range, and a load that returns true has all functions. -/
def CoversSource (skip : List CStr) (env : LoadEnv) (m : FuncMap) (fs : Fs) (source : ElfSource) :
    Prop :=
  ∃ r, source.load skip env m fs = .ok r ∧
    (r.1 = true → r.2.1.funcs = keptFunctions skip (source.procedures m fs))

/-! ## The diagonal -/

/-- Procedure `i` of module `i`, and so on. -/
def diagonal : Nat → List (List BPatchFunction) → List BPatchFunction
  | _, [] => []
  | i, tmpFuncs :: mods => tmpFuncs[i]?.toList ++ diagonal (i + 1) mods

/-- Each module that has procedures has one at its own index. -/
def DiagonalInRange (i : Nat) (mods : List (List BPatchFunction)) : Prop :=
  ∀ j tmpFuncs, mods[j]? = some tmpFuncs → tmpFuncs ≠ [] → i + j < tmpFuncs.length

/-- The diagonal has every name that is not skipped, and these occur in it in the order in which
they occur in the object. -/
structure DiagonalCovers (skip : List CStr) (mods : List (List BPatchFunction)) : Prop where
  inRange : DiagonalInRange 0 mods
  names : ∀ func ∈ mods.flatten, func.name ∉ skip → ∃ f ∈ diagonal 0 mods, f.name = func.name
  order : ∀ f ∈ diagonal 0 mods, ∀ g ∈ diagonal 0 mods, f.name ∉ skip → g.name ∉ skip →
    Precedes ((diagonal 0 mods).map (·.name)) f.name g.name →
    Precedes (mods.flatten.map (·.name)) f.name g.name

theorem diagonal_subset (i : Nat) (mods : List (List BPatchFunction)) :
    diagonal i mods ⊆ mods.flatten := by
  induction mods generalizing i with
  | nil => exact List.Subset.refl _
  | cons tmpFuncs mods ih =>
    intro f hf
    rw [diagonal, List.mem_append] at hf
    rw [List.flatten_cons, List.mem_append]
    rcases hf with hf | hf
    · rw [Option.mem_toList] at hf
      exact .inl (List.mem_of_getElem? hf)
    · exact .inr (ih (i + 1) hf)

/-- The first occurrences on the diagonal are those of the object. -/
theorem keptFunctions_diagonal_iff (skip : List CStr) (mods : List (List BPatchFunction)) :
    keptFunctions skip (diagonal 0 mods) = keptFunctions skip mods.flatten ∧
        DiagonalInRange 0 mods ↔ DiagonalCovers skip mods := by
  rw [keptFunctions, keptFunctions, insertAll_eq_iff]
  constructor
  · rintro ⟨⟨hset, horder⟩, hrange⟩
    refine ⟨hrange, fun func hf hd => ?_, fun f hf g hg hdf hdg hlt => ?_⟩
    · exact List.mem_map.1 ((hset func.name hd).2 (List.mem_map_of_mem hf))
    · exact horder _ (List.mem_map_of_mem hf) _ (List.mem_map_of_mem hg) hdf hdg hlt
  · rintro ⟨hrange, hnames, horder⟩
    refine ⟨⟨fun a hd => ⟨fun ha => ?_, fun ha => ?_⟩, fun a ha b hb hda hdb hlt => ?_⟩, hrange⟩
    · obtain ⟨f, hf, rfl⟩ := List.mem_map.1 ha
      exact List.mem_map_of_mem (diagonal_subset 0 mods hf)
    · obtain ⟨func, hf, rfl⟩ := List.mem_map.1 ha
      exact List.mem_map.2 (hnames func hf hd)
    · obtain ⟨f, hf, rfl⟩ := List.mem_map.1 ha
      obtain ⟨g, hg, rfl⟩ := List.mem_map.1 hb
      exact horder f hf g hg hda hdb hlt

/-! ## The loops -/

/-- The procedures the loops take, one in each round. -/
def visited : Nat → List (List BPatchFunction) → List BPatchFunction
  | _, [] => []
  | i, tmpFuncs :: mods =>
    tmpFuncs[i]?.toList.flatMap (List.replicate tmpFuncs.length) ++ visited (i + 1) mods

theorem insertAll_visited (skip acc : List CStr) (i : Nat) (mods : List (List BPatchFunction)) :
    insertAll skip acc ((visited i mods).map (·.name)) =
      insertAll skip acc ((diagonal i mods).map (·.name)) := by
  induction mods generalizing acc i with
  | nil => rfl
  | cons tmpFuncs mods ih =>
    rw [visited, diagonal, List.map_append, List.map_append, insertAll_append, insertAll_append, ih]
    congr 1
    cases h : tmpFuncs[i]? with
    | none => rfl
    | some func =>
      have hlt := (List.getElem?_eq_some_iff.1 h).1
      simp only [Option.toList_some, List.flatMap_cons, List.flatMap_nil, List.append_nil,
        List.map_replicate, List.map_cons, List.map_nil]
      rw [insertAll_replicate (by omega)]
      rfl

theorem addModule_eq {skip : List CStr} {env : LoadEnv} {i : Nat} {tmpFuncs : List BPatchFunction}
    {func : BPatchFunction} (h : tmpFuncs[i]? = some func) (rounds : Nat) (m : FuncMap) (fs : Fs) :
    addModule skip env i tmpFuncs rounds m fs =
      .ok (addProcedures skip env (List.replicate rounds func) m fs) := by
  induction rounds generalizing m fs with
  | zero => rfl
  | succ rounds ih =>
    rw [List.replicate_succ, addProcedures_cons]
    simp only [addModule, h]
    split
    · exact ih _ _
    · rfl

/-- In range, the rounds take one procedure. -/
theorem addModule_inRange {i : Nat} {tmpFuncs : List BPatchFunction}
    (h : tmpFuncs ≠ [] → i < tmpFuncs.length) (skip : List CStr) (env : LoadEnv) (m : FuncMap)
    (fs : Fs) :
    addModule skip env i tmpFuncs tmpFuncs.length m fs = .ok (addProcedures skip env
      (tmpFuncs[i]?.toList.flatMap (List.replicate tmpFuncs.length)) m fs) := by
  by_cases hnil : tmpFuncs = []
  · rw [hnil]
    rfl
  · have hi : tmpFuncs[i]? = some (tmpFuncs.get ⟨i, h hnil⟩) := List.getElem?_eq_getElem (h hnil)
    rw [addModule_eq hi, hi, Option.toList_some, List.flatMap_cons, List.flatMap_nil,
      List.append_nil]

theorem addModule_outOfRange {i : Nat} {tmpFuncs : List BPatchFunction} (hne : tmpFuncs ≠ [])
    (hle : tmpFuncs.length ≤ i) (skip : List CStr) (env : LoadEnv) (m : FuncMap) (fs : Fs) :
    addModule skip env i tmpFuncs tmpFuncs.length m fs = .error ⟨i, tmpFuncs.length⟩ := by
  have hpos := List.length_pos_of_ne_nil hne
  obtain ⟨rounds, hr⟩ : ∃ k, tmpFuncs.length = k + 1 := ⟨tmpFuncs.length - 1, by omega⟩
  have hnone : tmpFuncs[i]? = none := List.getElem?_eq_none hle
  nth_rewrite 1 [hr]
  simp only [addModule, hnone]

theorem diagonalInRange_cons {i : Nat} {tmpFuncs : List BPatchFunction}
    {mods : List (List BPatchFunction)} : DiagonalInRange i (tmpFuncs :: mods) ↔
      (tmpFuncs ≠ [] → i < tmpFuncs.length) ∧ DiagonalInRange (i + 1) mods := by
  constructor
  · intro h
    refine ⟨h 0 tmpFuncs rfl, fun j procs hj hne => ?_⟩
    have hlt := h (j + 1) procs hj hne
    omega
  · rintro ⟨h0, h⟩ j procs hj hne
    cases j with
    | zero =>
      cases hj
      exact h0 hne
    | succ j =>
      have hlt := h j procs hj hne
      omega

/-- In range, the loops are the loop over the procedures visited. -/
theorem addModules_eq {skip : List CStr} {env : LoadEnv} {i : Nat}
    {mods : List (List BPatchFunction)} (h : DiagonalInRange i mods) (m : FuncMap) (fs : Fs) :
    addModules skip env i mods m fs = .ok (addProcedures skip env (visited i mods) m fs) := by
  induction mods generalizing i m fs with
  | nil => rfl
  | cons tmpFuncs mods ih =>
    obtain ⟨h0, hrest⟩ := diagonalInRange_cons.1 h
    rw [visited, addProcedures_append]
    simp only [addModules, addModule_inRange h0]
    split
    · exact ih hrest _ _
    · rfl

/-- When every wrapper can be written, the loops come to a module that is too short. -/
theorem addModules_error {skip : List CStr} {env : LoadEnv} (hopen : env.openWrapper = true)
    {i : Nat} {mods : List (List BPatchFunction)} (h : ¬ DiagonalInRange i mods) {m : FuncMap}
    (hm : m.Numbered) (fs : Fs) : ∃ f, addModules skip env i mods m fs = .error f := by
  induction mods generalizing i m fs with
  | nil => exact absurd (fun j procs hj => (by cases hj)) h
  | cons tmpFuncs mods ih =>
    by_cases h0 : tmpFuncs ≠ [] → i < tmpFuncs.length
    · have hrest : ¬ DiagonalInRange (i + 1) mods :=
        fun hrest => h (diagonalInRange_cons.2 ⟨h0, hrest⟩)
      obtain ⟨-, hn, -, -, ho⟩ := @addProcedures_spec skip env
        (tmpFuncs[i]?.toList.flatMap (List.replicate tmpFuncs.length)) m hm fs
      simp only [addModules, addModule_inRange h0, ho hopen, ↓reduceIte]
      exact ih hrest hn _
    · rw [Classical.not_imp] at h0
      simp only [addModules, addModule_outOfRange h0.1 (Nat.le_of_not_lt h0.2)]
      exact ⟨_, rfl⟩

/-! ## Coverage -/

section

variable {skip : List CStr} {m : FuncMap} {image : CStr} {mods : List (List BPatchFunction)}

/-- In range, an object is covered whenever the load succeeds iff its diagonal has its functions. -/
theorem coversSource_of_inRange (h : DiagonalInRange 0 mods) (hm : m.Numbered)
    (hempty : m.funcs = []) :
    (∀ env fs, CoversSource skip env m fs (.object image mods)) ↔
      keptFunctions skip (diagonal 0 mods) = keptFunctions skip mods.flatten := by
  have hload : ∀ env fs, (ElfSource.object image mods).load skip env m fs =
      .ok (finishELF env image (addProcedures skip env (visited 0 mods) m fs)) := by
    intro env fs
    simp only [ElfSource.load, addModules_eq h]
  have hfuncs : ∀ env fs,
      (finishELF env image (addProcedures skip env (visited 0 mods) m fs)).1 = true →
      (finishELF env image (addProcedures skip env (visited 0 mods) m fs)).2.1.funcs =
        keptFunctions skip (diagonal 0 mods) := by
    intro env fs ht
    obtain ⟨-, -, -, hf, -⟩ := @addProcedures_spec skip env (visited 0 mods) m hm fs
    obtain ⟨hsame, -⟩ := finishELF_spec env image (addProcedures skip env (visited 0 mods) m fs)
    rw [hsame.funcs, hf (finishELF_ok ht), hempty, insertAll_visited]
    rfl
  constructor
  · intro hc
    obtain ⟨r, hr, hk⟩ := hc .granting Fs.empty
    rw [hload] at hr
    cases hr
    have hgrant : (finishELF .granting image
        (addProcedures skip .granting (visited 0 mods) m Fs.empty)).1 = true := by
      obtain ⟨-, -, -, -, ho⟩ := @addProcedures_spec skip .granting (visited 0 mods) m hm Fs.empty
      exact (finishELF_spec _ _ _).2.1 rfl (ho rfl)
    rw [← hfuncs _ _ hgrant, hk hgrant]
    rfl
  · intro hk env fs
    exact ⟨_, hload env fs, fun ht => (hfuncs env fs ht).trans hk⟩

theorem coversSource_object_iff (hm : m.Numbered) (hempty : m.funcs = []) :
    (∀ env fs, CoversSource skip env m fs (.object image mods)) ↔ DiagonalCovers skip mods := by
  rw [← keptFunctions_diagonal_iff]
  by_cases h : DiagonalInRange 0 mods
  · rw [coversSource_of_inRange h hm hempty, and_iff_left h]
  · refine iff_of_false (fun hc => ?_) fun hk => h hk.2
    obtain ⟨r, hr, -⟩ := hc .granting Fs.empty
    obtain ⟨f, hf⟩ := @addModules_error skip .granting rfl 0 mods h m hm Fs.empty
    simp only [ElfSource.load, hf] at hr
    cases hr

end

/-- **Loading from the ELF covers every procedure, in every environment, exactly when the source is
a binary or an object covered by its diagonal.** -/
theorem load_covers_iff (skip : List CStr) (name path : CStr) (wrap : Bool) (source : ElfSource) :
    (∀ env fs, CoversSource skip env (FuncMap.ofName name path wrap) fs source) ↔
      match source with
      | .binary _ => True
      | .object _ mods => DiagonalCovers skip mods := by
  cases source with
  | object image mods =>
    exact coversSource_object_iff (FuncMap.numbered_ofName name path wrap) rfl
  | binary procedures =>
    refine iff_of_true (fun env fs => ⟨_, rfl, fun ht => ?_⟩) trivial
    have hpath : (FuncMap.ofName name path wrap).elfPath = path := rfl
    cases helf : fs.files path with
    | none =>
      rcases loadFromELF_cases procedures skip env (FuncMap.ofName name path wrap) fs with
        ⟨hload, -⟩ | ⟨elf, helf', -, -⟩
      · rw [hload] at ht
        cases ht
      · rw [hpath, helf] at helf'
        cases helf'
    | some elf =>
      rw [((loadFromELF_spec_ofName procedures skip wrap name env helf).1 ht).2]
      simp only [ElfSource.procedures, hpath, helf]

/-- An object with one module of two functions. -/
def twoFunctions : List (List BPatchFunction) :=
  [[⟨"main".toList, 0, true, 0⟩, ⟨"foo".toList, 0, true, 1⟩]]

/-- An object with two modules of one function each. -/
def twoModules : List (List BPatchFunction) :=
  [[⟨"main".toList, 0, true, 0⟩], [⟨"foo".toList, 0, true, 1⟩]]

/-- `main` is added twice and `foo` not at all; and the second module is indexed out of range. -/
theorem object_not_covered :
    (∃ r, (ElfSource.object [] twoFunctions).load (skiplist true) .granting
        (FuncMap.ofName "app".toList "/bin/app".toList false) Fs.empty = .ok r ∧ r.1 = true ∧
      r.2.1.funcs = ["main".toList]) ∧
    keptFunctions (skiplist true) twoFunctions.flatten = ["main".toList, "foo".toList] ∧
    (ElfSource.object [] twoModules).load (skiplist true) .granting
      (FuncMap.ofName "app".toList "/bin/app".toList false) Fs.empty = .error ⟨1, 1⟩ ∧
    ¬ CoversSource (skiplist true) .granting (FuncMap.ofName "app".toList "/bin/app".toList false)
      Fs.empty (.object [] twoFunctions) := by
  have hkept : keptFunctions (skiplist true) twoFunctions.flatten =
      ["main".toList, "foo".toList] := by decide +kernel
  refine ⟨⟨_, rfl, by decide +kernel, by decide +kernel⟩, hkept, rfl, ?_⟩
  rintro ⟨r, hr, hk⟩
  cases hr
  have hfuncs := hk (by decide +kernel)
  rw [ElfSource.procedures, hkept] at hfuncs
  exact absurd hfuncs (by decide +kernel)

end Lprofile.Utils
