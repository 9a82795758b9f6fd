import Lprofile.Utils.Load

/-!
# The wrapper source

`loadFromELF` writes the wrapper source while it numbers the procedures, one
block for each procedure that gets a number. `keptProcedures` is the list of
these procedures; block `i` belongs to the function with number `i`, and a
wrapper is found again only by its symbol, `LPROFILE_WRAP_func<i>`.
-/

namespace Lprofile.Utils

open Lprofile.Lib Lprofile.Probe

/-! ## The procedures that get a number -/

def keepProcedure (skip : List CStr) (kept : List BPatchFunction) (p : BPatchFunction) :
    List BPatchFunction :=
  if p.name ∈ kept.map (·.name) ∨ p.name ∈ skip then kept else kept ++ [p]

/-- The first procedure of each name that is not skipped. -/
def keptProcedures (skip : List CStr) (kept procs : List BPatchFunction) : List BPatchFunction :=
  procs.foldl (keepProcedure skip) kept

theorem length_keepProcedure (skip : List CStr) (kept : List BPatchFunction) (p : BPatchFunction) :
    (keepProcedure skip kept p).length ≤ kept.length + 1 := by
  unfold keepProcedure
  split
  · omega
  · rw [List.length_append, List.length_singleton]

theorem length_keptProcedures (skip : List CStr) (kept procs : List BPatchFunction) :
    (keptProcedures skip kept procs).length ≤ kept.length + procs.length := by
  induction procs generalizing kept with
  | nil => exact Nat.le_refl _
  | cons p procs ih =>
    have hstep := length_keepProcedure skip kept p
    have hrest := ih (keepProcedure skip kept p)
    rw [List.length_cons]
    exact hrest.trans (by omega)

/-- They are the procedures behind the names of the map. -/
theorem names_keptProcedures (skip : List CStr) (kept procs : List BPatchFunction) :
    (keptProcedures skip kept procs).map (·.name) =
      insertAll skip (kept.map (·.name)) (procs.map (·.name)) := by
  induction procs generalizing kept with
  | nil => rfl
  | cons p procs ih =>
    have hstep : (keepProcedure skip kept p).map (·.name) =
        insertNew skip (kept.map (·.name)) p.name := by
      unfold keepProcedure insertNew
      split
      · rfl
      · rw [List.map_append, List.map_singleton]
    rw [List.map_cons, insertAll_cons, ← hstep]
    exact ih (keepProcedure skip kept p)

/-- A procedure that is kept is the first one with its name. -/
theorem first_of_mem_keptProcedures {skip : List CStr} {kept procs : List BPatchFunction}
    {p : BPatchFunction} (h : p ∈ keptProcedures skip kept procs) :
    p ∈ kept ∨ (p.name ∉ kept.map (·.name) ∧ p.name ∉ skip ∧
      procs.find? (fun q => q.name = p.name) = some p) := by
  induction procs generalizing kept with
  | nil => exact .inl h
  | cons q procs ih =>
    rcases ih h with hmem | ⟨hno, hskip, hfind⟩
    · unfold keepProcedure at hmem
      split at hmem
      · exact .inl hmem
      · rename_i hq
        rw [List.mem_append, List.mem_singleton] at hmem
        rcases hmem with hmem | rfl
        · exact .inl hmem
        · rw [not_or] at hq
          exact .inr ⟨hq.1, hq.2, by simp⟩
    · right
      have hkept : p.name ∉ kept.map (·.name) ∧ q.name ≠ p.name := by
        unfold keepProcedure at hno
        split at hno
        · rename_i hq
          refine ⟨hno, fun e => ?_⟩
          rw [e] at hq
          exact hq.elim hno hskip
        · rw [List.map_append, List.mem_append, not_or] at hno
          exact ⟨hno.1, fun e => hno.2 (by simp [e])⟩
      exact ⟨hkept.1, hskip, by rw [List.find?_cons_of_neg (by simpa using hkept.2), hfind]⟩

/-! ## The text -/

/-- The header, and one block for each function in the order of the numbers. -/
def sourceText (kept : List BPatchFunction) : CStr :=
  wrapperHeader ++ (kept.mapIdx fun i p => wrapperText p i).flatten

theorem sourceText_append (kept : List BPatchFunction) (p : BPatchFunction) :
    sourceText (kept ++ [p]) = sourceText kept ++ wrapperText p kept.length := by
  unfold sourceText
  rw [List.mapIdx_append, List.flatten_append, ← List.append_assoc]
  simp

/-- The wrapper goes behind what is written already, or behind the header. -/
theorem generateWrapper_eq {env : LoadEnv} {m : FuncMap} {text : CStr} (func : BPatchFunction)
    (index : Nat) (fs : Fs)
    (h : m.wrapper = some text ∨
      m.wrapper = none ∧ env.openWrapper = true ∧ text = wrapperHeader) :
    generateWrapper env m func index fs =
      (true, { m with wrapper := some (text ++ wrapperText func index) },
        fs.write (getWrapFilePath m.elfName .src) (text ++ wrapperText func index) .wrapper) := by
  unfold generateWrapper
  rcases h with h | ⟨h, ho, rfl⟩
  · rw [h]
  · rw [h, ho]
    rfl

theorem generateWrapper_opened {env : LoadEnv} {m : FuncMap} {func : BPatchFunction} {index : Nat}
    {fs : Fs} (hm : m.wrapper = none) (hok : (generateWrapper env m func index fs).1 = true) :
    env.openWrapper = true := by
  by_contra hno
  simp [generateWrapper, hm, Bool.eq_false_of_not_eq_true hno] at hok

/-- A parameter list with the names `p0` to `p(n-1)`. -/
def paramList (n : Nat) : CStr :=
  "(".toList ++ (", ".toList).intercalate ((List.range n).map fun j => "void *p".toList ++ decimal j) ++
    ")".toList

/-- The statements of a wrapper. -/
def wrapperBody (p : BPatchFunction) (i : Nat) : CStr :=
  (if p.hasRet then "\tvoid *ret;\n".toList else []) ++
  "\tlprobe_func_entry(".toList ++ decimal i ++ ");\n".toList ++
  (if p.hasRet then "\tret = 0;\n".toList else []) ++
  "\tfprintf(stdout, \"wrap func".toList ++ decimal i ++ " :".toList ++ p.name ++
  "\\n\");\n".toList ++
  "\tlprobe_func_exit(".toList ++ decimal i ++ ");\n".toList ++
  (if p.hasRet then "\treturn ret;\n".toList else [])

/-- A prototype of the hook and a definition of the wrapper, with the same parameter list. -/
def wrapperBlock (p : BPatchFunction) (i : Nat) : CStr :=
  let type := if p.hasRet then "void *".toList else "void ".toList
  type ++ getWrapSymbolName i .hook ++ paramList p.nbParams ++ ";\n".toList ++
  (type ++ getWrapSymbolName i .wrap ++ paramList p.nbParams ++ " \x7b\n".toList ++
    wrapperBody p i ++ "\x7d\n".toList)

theorem wrapperText_eq (p : BPatchFunction) (i : Nat) : wrapperText p i = wrapperBlock p i := by
  -- stated over arbitrary texts: the literals themselves would be taken apart
  have regroup : ∀ a b c d e₁ e₂ e₃ e₄ e₅ e₆ e₇ e₈ e₉ e₁₀ e₁₁ e₁₂ e₁₃ e₁₄ z : CStr,
      a ++ b ++ c ++ d ++ e₁ ++ e₂ ++ e₃ ++ e₄ ++ e₅ ++ e₆ ++ e₇ ++ e₈ ++ e₉ ++ e₁₀ ++ e₁₁ ++ e₁₂ ++
          e₁₃ ++ e₁₄ ++ z =
        a ++ b ++ (c ++ d ++ (e₁ ++ e₂ ++ e₃ ++ e₄ ++ e₅ ++ e₆ ++ e₇ ++ e₈ ++ e₉ ++ e₁₀ ++ e₁₁ ++
          e₁₂ ++ e₁₃ ++ e₁₄) ++ z) := by
    intros
    simp only [List.append_assoc]
  exact regroup _ _ _ _ _ _ _ _ _ _ _ _ _ _ _ _ _ _ _

/-- What the loop has made of the procedures it has seen. -/
structure WrapLoop (m : FuncMap) (fs : Fs) (kept : List BPatchFunction) : Prop where
  numbered : m.Numbered
  wrap : m.isWrap = true
  funcs : m.funcs = kept.map (·.name)
  text : m.wrapper = if kept = [] then none else some (sourceText kept)
  file : kept ≠ [] → ∃ file, fs.files (getWrapFilePath m.elfName .src) = some file ∧
    file.text = sourceText kept

/-- One round of the loop, when the wrapper is written. -/
theorem WrapLoop.step {m : FuncMap} {fs : Fs} {kept : List BPatchFunction}
    (h : WrapLoop m fs kept) {skip : List CStr} {env : LoadEnv} {p : BPatchFunction}
    (hlen : kept.length + 1 < 2 ^ 32) (hok : (addProcedure skip env p m fs).1 = true) :
    let w := addProcedure skip env p m fs
    w.2.1.elfName = m.elfName ∧ WrapLoop w.2.1 w.2.2 (keepProcedure skip kept p) := by
  unfold addProcedure at hok ⊢
  have hnum := addFunction_numbered h.numbered skip p.name
  have hfuncs := addFunction_funcs h.numbered skip p.name
  obtain ⟨hname, -, hwrap, htext⟩ := addFunction_frame skip m p.name
  by_cases hk : p.name ∈ kept.map (·.name) ∨ p.name ∈ skip
  · have hmax : (addFunction skip m p.name).1 = uintMax := by
      rw [addFunction_index h.numbered, h.funcs, if_pos hk]
    have hkeep : keepProcedure skip kept p = kept := if_pos hk
    have hsame : (addFunction skip m p.name).2.funcs = kept.map (·.name) := by
      rw [hfuncs, h.funcs]
      exact if_pos hk
    simp only [hmax, bne_self_eq_false, Bool.and_false, Bool.false_eq_true, ↓reduceIte]
    refine ⟨hname, hnum, hwrap.trans h.wrap, ?_, ?_, ?_⟩
    · rw [hkeep, hsame]
    · rw [hkeep, htext, h.text]
    · rw [hkeep, hname]
      exact h.file
  · have hidx : (addFunction skip m p.name).1 = kept.length := by
      rw [addFunction_index h.numbered, h.funcs, if_neg hk, List.length_map]
      exact Nat.mod_eq_of_lt (by omega)
    have hne : (kept.length != uintMax) = true := by
      rw [bne_iff_ne]
      show kept.length ≠ 4294967295
      omega
    have hkeep : keepProcedure skip kept p = kept ++ [p] := if_neg hk
    have hsame : (addFunction skip m p.name).2.funcs = (kept ++ [p]).map (·.name) := by
      rw [hfuncs, h.funcs, List.map_append]
      exact if_neg hk
    simp only [hidx, h.wrap, hne, Bool.and_self, ↓reduceIte] at hok ⊢
    have hopen : (addFunction skip m p.name).2.wrapper = some (sourceText kept) ∨
        (addFunction skip m p.name).2.wrapper = none ∧ env.openWrapper = true ∧
          sourceText kept = wrapperHeader := by
      rw [htext, h.text]
      by_cases hnil : kept = []
      · subst hnil
        have hnone : (addFunction skip m p.name).2.wrapper = none := htext.trans h.text
        exact .inr ⟨rfl, generateWrapper_opened hnone hok, rfl⟩
      · exact .inl (if_neg hnil)
    simp only [generateWrapper_eq _ _ _ hopen]
    rw [← sourceText_append]
    refine ⟨hname, ⟨hnum.nodup, hnum.indices⟩, hwrap.trans h.wrap, ?_, ?_, fun _ => ?_⟩
    · rw [hkeep, hsame]
    · rw [hkeep, if_neg (by simp)]
    · rw [hkeep]
      exact ⟨_, Fs.write_self .., rfl⟩

theorem wrapLoop_ofName (name path : CStr) (fs : Fs) :
    WrapLoop (FuncMap.ofName name path true) fs [] :=
  ⟨FuncMap.numbered_ofName .., rfl, rfl, rfl, fun h => absurd rfl h⟩

theorem addProcedures_wrapLoop {skip : List CStr} {env : LoadEnv} {procs : List BPatchFunction}
    {m : FuncMap} {fs : Fs} {kept : List BPatchFunction} (h : WrapLoop m fs kept)
    (hlen : kept.length + procs.length < 2 ^ 32)
    (hok : (addProcedures skip env procs m fs).1 = true) :
    let r := addProcedures skip env procs m fs
    r.2.1.elfName = m.elfName ∧ WrapLoop r.2.1 r.2.2 (keptProcedures skip kept procs) := by
  induction procs generalizing m fs kept with
  | nil => exact ⟨rfl, h⟩
  | cons p procs ih =>
    rw [List.length_cons] at hlen
    rw [addProcedures_cons] at hok ⊢
    dsimp only at hok ⊢
    split at hok
    · rename_i hone
      rw [if_pos hone]
      obtain ⟨hname, hstep⟩ := h.step (by omega) hone
      have hgrow := length_keepProcedure skip kept p
      obtain ⟨hname', hloop⟩ := ih hstep (by omega) hok
      exact ⟨hname'.trans hname, hloop⟩
    · rename_i hone
      exact absurd hok hone

/-! ## The load -/

/-- Every file operation works, Dyninst reads the ELF and `gcc` makes a library of the source. -/
structure LoadEnv.Succeeds (env : LoadEnv) (src : CStr) : Prop where
  buildDir : env.buildDir = true
  openCache : env.openCache = true
  openBinary : env.openBinary = true
  getProcedures : env.getProcedures = true
  openWrapper : env.openWrapper = true
  gcc : (env.gcc src).isSome

theorem src_ne_lib (elf : CStr) : getWrapFilePath elf .src ≠ getWrapFilePath elf .lib := by
  intro h
  exact absurd (List.append_cancel_left h) (by decide)

theorem src_ne_cache (elf : CStr) : getWrapFilePath elf .src ≠ funcmapDir ++ elf := by
  intro h
  have hlen := congrArg List.length h
  simp only [getWrapFilePath, List.length_append, show (funcmapPrefix).length = 14 by decide] at hlen
  omega

/-- The source is closed and compiled; the text stays. -/
theorem compileWrapper_keeps {env : LoadEnv} {src : CStr} (henv : env.Succeeds src) {m : FuncMap}
    (hm : m.wrapper = some src) (fs : Fs) :
    let c := compileWrapper env m fs
    c.1 = true ∧ SameFuncs m c.2.1 ∧
      c.2.2.files (getWrapFilePath m.elfName .src) = fs.files (getWrapFilePath m.elfName .src) := by
  obtain ⟨hsame, -, hok⟩ := compileWrapper_spec env m fs
  obtain ⟨lib, hlib⟩ := Option.isSome_iff_exists.1 henv.gcc
  refine ⟨hok fun text htext => ?_, hsame, ?_⟩
  · rw [hm] at htext
    cases htext
    exact henv.gcc
  · simp only [compileWrapper, hm, hlib]
    exact Fs.write_of_ne (src_ne_lib m.elfName) ..

theorem updateCache_keeps {env : LoadEnv} {src : CStr} (henv : env.Succeeds src) (image : CStr)
    (m : FuncMap) (fs : Fs) :
    let u := updateCache env image m fs
    u.1 = true ∧
      u.2.files (getWrapFilePath m.elfName .src) = fs.files (getWrapFilePath m.elfName .src) := by
  simp only [updateCache, henv.buildDir, henv.openCache, Bool.not_true, Bool.false_eq_true,
    ↓reduceIte, true_and]
  exact Fs.write_of_ne (src_ne_cache m.elfName) ..

/-- A load with wrappers numbers the kept procedures and leaves their source. -/
theorem loadFromELF_source {procedures : CStr → List BPatchFunction} {skip : List CStr}
    {env : LoadEnv} (name : CStr) {path : CStr} {fs : Fs} {elf : File}
    (henv : env.Succeeds (sourceText (keptProcedures skip [] (procedures elf.text))))
    (helf : fs.files path = some elf) (hloop : (procedures elf.text).length < 2 ^ 32)
    (hkept : keptProcedures skip [] (procedures elf.text) ≠ []) :
    let r := loadFromELF procedures skip env (FuncMap.ofName name path true) fs
    let kept := keptProcedures skip [] (procedures elf.text)
    r.1 = true ∧ r.2.1.Numbered ∧ r.2.1.funcs = kept.map (·.name) ∧
      ∃ file, r.2.2.files (getWrapFilePath name .src) = some file ∧ file.text = sourceText kept := by
  have hnum := FuncMap.numbered_ofName name path true
  have hok : (addProcedures skip env (procedures elf.text) (FuncMap.ofName name path true) fs).1 =
      true := (addProcedures_spec _ hnum fs).2.2.2.2 henv.openWrapper
  obtain ⟨hname, hend⟩ := addProcedures_wrapLoop (wrapLoop_ofName name path fs)
    (by rw [List.length_nil]; omega) hok
  have hpath : (FuncMap.ofName name path true).elfPath = path := rfl
  simp only [loadFromELF, hpath, helf, henv.openBinary, henv.getProcedures, Bool.not_true,
    Bool.or_self, Bool.false_eq_true, ↓reduceIte]
  generalize addProcedures skip env (procedures elf.text) (FuncMap.ofName name path true) fs = r
    at hok hname hend ⊢
  have hpos : 0 < r.2.1.funcs.length := by
    rw [hend.funcs, List.length_map]
    exact List.length_pos_of_ne_nil hkept
  have htext : r.2.1.wrapper = some _ := hend.text.trans (if_neg hkept)
  obtain ⟨hcok, hsame, hcsrc⟩ := compileWrapper_keeps henv htext r.2.2
  simp only [hok, hend.wrap, hpos, Bool.not_true, Bool.false_eq_true, ↓reduceIte, decide_true,
    Bool.and_self, hcok]
  obtain ⟨huok, husrc⟩ := updateCache_keeps henv elf.text (compileWrapper env r.2.1 r.2.2).2.1
    (compileWrapper env r.2.1 r.2.2).2.2
  obtain ⟨file, hfile, htext⟩ := hend.file hkept
  have hsrc : (FuncMap.ofName name path true).elfName = name := rfl
  rw [hname, hsrc] at hfile hcsrc
  rw [hsame.elfName, hname, hsrc] at husrc
  refine ⟨huok, hsame.numbered hend.numbered, hsame.funcs.trans hend.funcs, file, ?_, htext⟩
  rw [husrc, hcsrc, hfile]

/-! ## Symbols -/

/-- The symbols of the two families are all different. -/
theorem getWrapSymbolName_injective {i j : Nat} {type type' : WrapSymbol}
    (h : getWrapSymbolName i type = getWrapSymbolName j type') : i = j ∧ type = type' := by
  have hlen : "LPROFILE_HOOK_func".toList.length = "LPROFILE_WRAP_func".toList.length := by decide
  have hne : "LPROFILE_HOOK_func".toList ≠ "LPROFILE_WRAP_func".toList := by decide
  unfold getWrapSymbolName at h
  cases type with
  | hook =>
    cases type' with
    | hook =>
      dsimp only at h
      exact ⟨decimal_injective (List.append_cancel_left h), rfl⟩
    | wrap =>
      dsimp only at h
      exact absurd (List.append_inj h hlen).1 hne
  | wrap =>
    cases type' with
    | hook =>
      dsimp only at h
      exact absurd (List.append_inj h hlen.symm).1 hne.symm
    | wrap =>
      dsimp only at h
      exact ⟨decimal_injective (List.append_cancel_left h), rfl⟩

/-- The first procedure of this name. -/
def firstNamed (procs : List BPatchFunction) (name : CStr) : Option BPatchFunction :=
  procs.find? fun q => q.name = name

/-- The wrapper `handleFunction` looks up for a target with this index: `findFunction` gives the
first function of the library with the symbol. -/
def findWrapper (kept : List BPatchFunction) (index : Nat) : Option BPatchFunction :=
  (kept.zipIdx.find? fun b => getWrapSymbolName b.2 .wrap = getWrapSymbolName index .wrap).map (·.1)

theorem findWrapper_eq (kept : List BPatchFunction) (index : Nat) :
    findWrapper kept index = kept[index]? := by
  have hkey : ∀ b : BPatchFunction × Nat,
      decide (getWrapSymbolName b.2 .wrap = getWrapSymbolName index .wrap) = (b.2 == index) := by
    intro b
    rw [Bool.eq_iff_iff, decide_eq_true_iff, beq_iff_eq]
    exact ⟨fun h => (getWrapSymbolName_injective h).1, fun h => by rw [h]⟩
  have hfind : ∀ (l : List BPatchFunction) (k : Nat),
      ((l.zipIdx k).find? fun b => b.2 == index).map (·.1) =
        if k ≤ index then l[index - k]? else none := by
    intro l
    induction l with
    | nil => intro k; simp
    | cons p l ih =>
      intro k
      rw [List.zipIdx_cons, List.find?_cons]
      by_cases hk : k = index
      · simp [hk]
      · rw [show (k == index) = false from by simpa using hk]
        rw [ih (k + 1)]
        by_cases hle : k + 1 ≤ index
        · have hsub : index - k = index - (k + 1) + 1 := by omega
          rw [if_pos hle, if_pos (by omega), hsub, List.getElem?_cons_succ]
        · rw [if_neg hle, if_neg (by omega)]
  rw [findWrapper, funext hkey]
  simpa using hfind kept 0

/-- The wrapper found for a position is the one made for the name there. -/
theorem findWrapper_of_map {kept : List BPatchFunction} {names : List CStr}
    {first : CStr → Option BPatchFunction} (h : kept.map some = names.map first) {i : Nat}
    (hi : i < names.length) : findWrapper kept i = first names[i] := by
  have hat : kept[i]?.map some = some (first names[i]) := by
    rw [← List.getElem?_map, h, List.getElem?_map, List.getElem?_eq_getElem hi]
    rfl
  rw [findWrapper_eq]
  rcases hk : kept[i]? with _ | p
  · rw [hk] at hat
    cases hat
  · rw [hk] at hat
    exact Option.some.inj hat

theorem firstNamed_keptProcedures (skip : List CStr) (procs : List BPatchFunction) :
    (keptProcedures skip [] procs).map some =
      ((keptProcedures skip [] procs).map (·.name)).map (firstNamed procs) := by
  rw [List.map_map]
  refine List.map_congr_left fun p hp => ?_
  rcases first_of_mem_keptProcedures hp with h | ⟨-, -, h⟩
  · exact absurd h List.not_mem_nil
  · exact h.symm

/-- **The wrapper library and the map agree.** A load with wrappers, all of whose file operations
succeed, leaves as the wrapper source the header and then exactly one block for each number in
increasing order, made for the first listed procedure with the name of that number. The symbols
are all different, and the wrapper found for the number of a function is the one made for it.
(`hloop`: the loop counts the procedures in 32 bits, and a longer list is never loaded.) -/
theorem loadFromELF_wrapper (procedures : CStr → List BPatchFunction) (skip : List CStr)
    (env : LoadEnv) (name path : CStr) (fs : Fs) (elf : File)
    (henv : env.Succeeds (sourceText (keptProcedures skip [] (procedures elf.text))))
    (helf : fs.files path = some elf) (hloop : (procedures elf.text).length < 2 ^ 32)
    (hkept : keptFunctions skip (procedures elf.text) ≠ []) :
    let procs := procedures elf.text
    let r := loadFromELF procedures skip env (FuncMap.ofName name path true) fs
    let m := r.2.1
    r.1 = true ∧ m.funcs = keptFunctions skip procs ∧ ∃ kept file,
      kept.map some = m.funcs.map (firstNamed procs) ∧
      r.2.2.files (getWrapFilePath name .src) = some file ∧
      file.text = wrapperHeader ++ (kept.mapIdx fun i p => wrapperBlock p i).flatten ∧
      (∀ i j type type', getWrapSymbolName i type = getWrapSymbolName j type' →
        i = j ∧ type = type') ∧
      ∀ n ∈ m.funcs, findWrapper kept (getFunctionID m n) = firstNamed procs n := by
  intro procs r m
  have hnames := names_keptProcedures skip [] procs
  have hne : keptProcedures skip [] procs ≠ [] := by
    intro h
    rw [h] at hnames
    exact hkept hnames.symm
  obtain ⟨hok, hnum, hfuncs, file, hfile, htext⟩ :=
    loadFromELF_source name henv helf hloop hne
  have hfirst := firstNamed_keptProcedures skip procs
  refine ⟨hok, hfuncs.trans hnames, keptProcedures skip [] procs, file, ?_, hfile, ?_,
    fun i j type type' h => getWrapSymbolName_injective h, fun n hn => ?_⟩
  · rw [hfirst]
    exact congrArg _ hfuncs.symm
  · rw [htext, sourceText]
    simp only [wrapperText_eq]
    rfl
  · -- the number of `n` is its position in `funcs`, which is that of its procedure in `kept`
    obtain ⟨i, hi, rfl⟩ := List.getElem_of_mem hn
    have hlen : m.funcs.length ≤ procs.length := by
      have hle := length_keptProcedures skip [] procs
      rw [show m.funcs = _ from hfuncs, List.length_map]
      simpa using hle
    have hid := hnum.getFunctionID_getElem (hlen.trans hloop.le) hi
    exact (congrArg _ hid).trans (findWrapper_of_map (hfirst.trans (congrArg _ hfuncs.symm)) hi)

theorem LoadEnv.succeeds_granting (src : CStr) : LoadEnv.granting.Succeeds src :=
  ⟨rfl, rfl, rfl, rfl, rfl, rfl⟩

/-- Four procedures: one is skipped, and `f` is listed twice. -/
def fewProcedures (_ : CStr) : List BPatchFunction :=
  [⟨"f".toList, 2, true, 0⟩, ⟨"_init".toList, 0, false, 1⟩, ⟨"g".toList, 0, false, 2⟩,
    ⟨"f".toList, 1, false, 3⟩]

def oneElf : Fs := Fs.empty.write "/bin/a".toList [] .elf

theorem loadFromELF_wrapper_few :
    let r := loadFromELF fewProcedures (skiplist true) .granting
      (FuncMap.ofName "a".toList "/bin/a".toList true) oneElf
    r.1 = true ∧ ∃ (kept : List BPatchFunction) (file : File),
      kept.map some = r.2.1.funcs.map (firstNamed (fewProcedures [])) ∧
      r.2.2.files (getWrapFilePath "a".toList .src) = some file ∧
      file.text = wrapperHeader ++ (kept.mapIdx fun i p => wrapperBlock p i).flatten := by
  obtain ⟨hok, -, kept, file, hkept, hfile, htext, -, -⟩ :=
    loadFromELF_wrapper fewProcedures (skiplist true) .granting "a".toList "/bin/a".toList oneElf
      ⟨[], 0, .elf⟩ (LoadEnv.succeeds_granting _) (by decide) (by decide) (by decide)
  exact ⟨hok, kept, file, hkept, hfile, htext⟩

end Lprofile.Utils
