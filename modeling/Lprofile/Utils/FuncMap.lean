import Lprofile.Lib.Firsts
import Lprofile.Lib.Stdio
import Lprofile.Probe.Profile

/-!
# Function maps

`FuncMap` gives the functions of an ELF file their numbers (`funcmap.cc`): in the
order of the ELF's procedures, the first occurrence of each name that is not in
the skip list. It keeps the list in a cache file named after the base name of
the ELF.

`Fs` is the file system the tool runs on. Dyninst is the parameter `procedures`:
the functions of an ELF image. What can go wrong in a call is in `LoadEnv`. A
file remembers where its text came from (`Origin`), a ghost. The log lines are
left out.
-/

namespace Lprofile.Utils

open Lprofile.Lib Lprofile.Probe

def funcmapDir : CStr := "/home/jiaru/lprofile/lprofile_cache/funcmap/".toList

def funcmapPrefix : CStr := "LPROFILE_WRAP_".toList

abbrev funcNameMax : Nat := 256

/-- `skiplist`: empty until a constructor that calls `initSkipList` has run. -/
def skiplist (initialised : Bool) : List CStr :=
  if initialised then
    ["_init".toList, "_fini".toList, "__popcountdi2".toList, "__do_global_dtors_aux".toList]
  else []

/-! ## Files -/

inductive Origin where
  | elf
  | wrapper
  /-- written by `updateCache`, for a map read from this ELF image -/
  | cache (image : CStr)
  deriving DecidableEq

structure File where
  text : CStr
  mtime : Nat
  origin : Origin
  deriving DecidableEq

/-- The file system, and the clock in whole seconds. -/
structure Fs where
  files : CStr → Option File
  now : Nat

def Fs.empty : Fs := ⟨fun _ => none, 0⟩

def Fs.write (fs : Fs) (path text : CStr) (origin : Origin) : Fs :=
  { fs with files := Function.update fs.files path (some ⟨text, fs.now, origin⟩) }

/-- What the environment grants to one call: `stat` and `fopen` of the cache file, the directories,
Dyninst, the wrapper source, and the library `gcc` makes of a source. -/
structure LoadEnv where
  statCache : Bool
  openCache : Bool
  buildDir : Bool
  openBinary : Bool
  getProcedures : Bool
  openWrapper : Bool
  gcc : CStr → Option CStr

/-- Everything works. -/
def LoadEnv.granting : LoadEnv := ⟨true, true, true, true, true, true, fun _ => some []⟩

/-! ## The map -/

/-- `BPatch_function`, as far as it is read; `addr` is the pointer. -/
structure BPatchFunction where
  name : CStr
  nbParams : Nat
  hasRet : Bool
  addr : Nat
  deriving DecidableEq

/-- `wrapper` is the text written to the wrapper source while it is open. -/
structure FuncMap where
  elfName : CStr
  elfPath : CStr
  isWrap : Bool
  funcs : List CStr
  funcIndices : CStr → Option Nat
  wrapper : Option CStr

/-- The part of a path after the last slash. -/
def baseName (path : CStr) : CStr := (path.reverse.takeWhile (· ≠ '/')).reverse

/-- `FuncMap(path, wrap)`. -/
def FuncMap.ofPath (path : CStr) (wrap : Bool) : FuncMap where
  elfName := baseName path
  elfPath := path
  isWrap := wrap
  funcs := []
  funcIndices _ := none
  wrapper := none

/-- `FuncMap(name, path, wrap)`. -/
def FuncMap.ofName (name path : CStr) (wrap : Bool) : FuncMap where
  elfName := name
  elfPath := path
  isWrap := wrap
  funcs := []
  funcIndices _ := none
  wrapper := none

def cachefile (m : FuncMap) : CStr := funcmapDir ++ m.elfName

/-- The index and the map; `UINT_MAX` for a name that is there already or is skipped. -/
def addFunction (skip : List CStr) (m : FuncMap) (func : CStr) : Nat × FuncMap :=
  if (m.funcIndices func).isSome then (uintMax, m)
  else if func ∈ skip then (uintMax, m)
  else
    let index := m.funcs.length % 2 ^ 32
    (index, { m with
      funcs := m.funcs ++ [func]
      funcIndices := Function.update m.funcIndices func (some index) })

def getFunctionID (m : FuncMap) (func : CStr) : Nat := (m.funcIndices func).getD uintMax

/-! ## Numbering -/

/-- The index of a function is its position in `funcs`, and `funcs` has no name twice. -/
structure FuncMap.Numbered (m : FuncMap) : Prop where
  nodup : m.funcs.Nodup
  indices : ∀ n, m.funcIndices n = if n ∈ m.funcs then some (m.funcs.idxOf n % 2 ^ 32) else none

theorem FuncMap.numbered_ofPath (path : CStr) (wrap : Bool) : (FuncMap.ofPath path wrap).Numbered :=
  ⟨List.nodup_nil, fun n => by simp [FuncMap.ofPath]⟩

theorem FuncMap.numbered_ofName (name path : CStr) (wrap : Bool) :
    (FuncMap.ofName name path wrap).Numbered :=
  ⟨List.nodup_nil, fun n => by simp [FuncMap.ofName]⟩

theorem FuncMap.Numbered.getFunctionID_eq {m : FuncMap} (h : m.Numbered) (n : CStr) :
    getFunctionID m n = if n ∈ m.funcs then m.funcs.idxOf n % 2 ^ 32 else uintMax := by
  rw [getFunctionID, h.indices]
  split <;> rfl

/-- The number of a function is its position. -/
theorem FuncMap.Numbered.getFunctionID_getElem {m : FuncMap} (h : m.Numbered)
    (hlen : m.funcs.length ≤ 2 ^ 32) {i : Nat} (hi : i < m.funcs.length) :
    getFunctionID m m.funcs[i] = i := by
  rw [h.getFunctionID_eq, if_pos (List.getElem_mem hi), h.nodup.idxOf_getElem]
  exact Nat.mod_eq_of_lt (hi.trans_le hlen)

/-- `funcs` decides the numbers. -/
theorem FuncMap.Numbered.getFunctionID_congr {m m' : FuncMap} (h : m.Numbered) (h' : m'.Numbered)
    (e : m.funcs = m'.funcs) (n : CStr) : getFunctionID m n = getFunctionID m' n := by
  rw [h.getFunctionID_eq, h'.getFunctionID_eq, e]

theorem FuncMap.Numbered.isSome_iff {m : FuncMap} (h : m.Numbered) (n : CStr) :
    (m.funcIndices n).isSome ↔ n ∈ m.funcs := by
  rw [h.indices]
  by_cases hn : n ∈ m.funcs <;> simp [hn]

theorem addFunction_funcs {m : FuncMap} (h : m.Numbered) (skip : List CStr) (f : CStr) :
    (addFunction skip m f).2.funcs = insertNew skip m.funcs f := by
  unfold addFunction
  by_cases hf : f ∈ m.funcs
  · rw [if_pos ((h.isSome_iff f).2 hf), insertNew_of_mem hf]
  · rw [if_neg (mt (h.isSome_iff f).1 hf)]
    by_cases hs : f ∈ skip
    · rw [if_pos hs, insertNew_of_drop hs]
    · rw [if_neg hs, insertNew_of_not_mem hf hs]

theorem addFunction_index {m : FuncMap} (h : m.Numbered) (skip : List CStr) (f : CStr) :
    (addFunction skip m f).1 =
      if f ∈ m.funcs ∨ f ∈ skip then uintMax else m.funcs.length % 2 ^ 32 := by
  unfold addFunction
  by_cases hf : f ∈ m.funcs
  · rw [if_pos ((h.isSome_iff f).2 hf), if_pos (.inl hf)]
  · rw [if_neg (mt (h.isSome_iff f).1 hf)]
    by_cases hs : f ∈ skip
    · rw [if_pos hs, if_pos (.inr hs)]
    · rw [if_neg hs, if_neg (not_or.2 ⟨hf, hs⟩)]

theorem addFunction_numbered {m : FuncMap} (h : m.Numbered) (skip : List CStr) (f : CStr) :
    (addFunction skip m f).2.Numbered := by
  refine ⟨by rw [addFunction_funcs h]; exact nodup_insertNew h.nodup f, fun n => ?_⟩
  unfold addFunction
  by_cases hf : f ∈ m.funcs
  · rw [if_pos ((h.isSome_iff f).2 hf)]
    exact h.indices n
  · rw [if_neg (mt (h.isSome_iff f).1 hf)]
    by_cases hs : f ∈ skip
    · rw [if_pos hs]
      exact h.indices n
    · rw [if_neg hs]
      dsimp only
      by_cases hn : n = f
      · subst hn
        simp [List.idxOf_append_of_notMem hf]
      · rw [Function.update_of_ne hn, h.indices]
        by_cases hm : n ∈ m.funcs
        · simp [hm, List.idxOf_append_of_mem hm]
        · simp [hm, hn]

/-- The fields `addFunction` leaves alone. -/
theorem addFunction_frame (skip : List CStr) (m : FuncMap) (f : CStr) :
    (addFunction skip m f).2.elfName = m.elfName ∧ (addFunction skip m f).2.elfPath = m.elfPath ∧
      (addFunction skip m f).2.isWrap = m.isWrap ∧
      (addFunction skip m f).2.wrapper = m.wrapper := by
  unfold addFunction
  by_cases hf : (m.funcIndices f).isSome
  · rw [if_pos hf]
    exact ⟨rfl, rfl, rfl, rfl⟩
  · rw [if_neg hf]
    by_cases hs : f ∈ skip
    · rw [if_pos hs]
      exact ⟨rfl, rfl, rfl, rfl⟩
    · rw [if_neg hs]
      exact ⟨rfl, rfl, rfl, rfl⟩

/-- `addFunction` for each of `names`. -/
def addFunctions (skip : List CStr) (m : FuncMap) (names : List CStr) : FuncMap :=
  names.foldl (fun m f => (addFunction skip m f).2) m

theorem addFunctions_spec {m : FuncMap} (h : m.Numbered) (skip names : List CStr) :
    (addFunctions skip m names).Numbered ∧
      (addFunctions skip m names).funcs = insertAll skip m.funcs names := by
  induction names generalizing m with
  | nil => exact ⟨h, rfl⟩
  | cons f names ih =>
    obtain ⟨hn, hf⟩ := ih (addFunction_numbered h skip f)
    exact ⟨hn, by rw [insertAll_cons, ← addFunction_funcs h]; exact hf⟩

/-! ## Wrappers -/

inductive WrapFile where
  | src
  | lib

inductive WrapSymbol where
  | hook
  | wrap

def getWrapFilePath (elf : CStr) : WrapFile → CStr
  | .src => funcmapDir ++ funcmapPrefix ++ elf ++ ".c".toList
  | .lib => funcmapDir ++ funcmapPrefix ++ elf ++ ".so".toList

def getWrapSymbolName (index : Nat) : WrapSymbol → CStr
  | .hook => "LPROFILE_HOOK_func".toList ++ decimal index
  | .wrap => "LPROFILE_WRAP_func".toList ++ decimal index

def generateWrapParam (isProto : Bool) (nbParams : Nat) : CStr :=
  let param := fun i =>
    (if isProto then "void *p".toList else "p".toList) ++ decimal i
  "(".toList ++ (", ".toList).intercalate ((List.range nbParams).map param) ++ ")".toList

def generateWrapDef (index : Nat) (type : WrapSymbol) (isProto : Bool) (nbParams : Nat)
    (hasRet : Bool) : CStr :=
  let funcname := getWrapSymbolName index type
  let funcname :=
    if isProto then (if hasRet then "void *".toList else "void ".toList) ++ funcname else funcname
  funcname ++ generateWrapParam isProto nbParams

/-- What `generateWrapper` writes when it opens the source. -/
def wrapperHeader : CStr :=
  "#include <stdio.h>\nvoid lprobe_func_entry(unsigned int);\nvoid lprobe_func_exit(unsigned int);\n".toList

/-- What `generateWrapper` writes for one function. -/
def wrapperText (func : BPatchFunction) (index : Nat) : CStr :=
  let n := func.nbParams
  generateWrapDef index .hook true n func.hasRet ++ ";\n".toList ++
  generateWrapDef index .wrap true n func.hasRet ++ " \x7b\n".toList ++
  (if func.hasRet then "\tvoid *ret;\n".toList else []) ++
  "\tlprobe_func_entry(".toList ++ decimal index ++ ");\n".toList ++
  (if func.hasRet then "\tret = 0;\n".toList else []) ++
  "\tfprintf(stdout, \"wrap func".toList ++ decimal index ++ " :".toList ++ func.name ++
  "\\n\");\n".toList ++
  "\tlprobe_func_exit(".toList ++ decimal index ++ ");\n".toList ++
  (if func.hasRet then "\treturn ret;\n".toList else []) ++
  "\x7d\n".toList

def generateWrapper (env : LoadEnv) (m : FuncMap) (func : BPatchFunction) (index : Nat) (fs : Fs) :
    Bool × FuncMap × Fs :=
  let path := getWrapFilePath m.elfName .src
  let text :=
    match m.wrapper with
    | some text => some text
    | none => if env.openWrapper then some wrapperHeader else none
  match text with
  | none => (false, m, fs)
  | some text =>
    let text := text ++ wrapperText func index
    (true, { m with wrapper := some text }, fs.write path text .wrapper)

def compileWrapper (env : LoadEnv) (m : FuncMap) (fs : Fs) : Bool × FuncMap × Fs :=
  match m.wrapper with
  | none => (true, m, fs)
  | some text =>
    let m := { m with wrapper := none }
    match env.gcc text with
    | some lib => (true, m, fs.write (getWrapFilePath m.elfName .lib) lib .wrapper)
    | none => (false, m, fs)

/-! ## The cache -/

/-- The lines `updateCache` writes. -/
def cacheText (funcs : List CStr) : CStr := funcs.flatMap fun f => f ++ ['\n']

/-- `updateCache`, for a map read from `image`. -/
def updateCache (env : LoadEnv) (image : CStr) (m : FuncMap) (fs : Fs) : Bool × Fs :=
  if !env.buildDir then (false, fs)
  else if !env.openCache then (false, fs)
  else (true, fs.write (cachefile m) (cacheText m.funcs) (.cache image))

/-- The line as `loadFromCache` passes it on: a newline at the end is cut off. -/
def chomp (line : CStr) : CStr := if line.getLast? = some '\n' then line.dropLast else line

/-- The loop of `loadFromCache` over the text of the cache file. -/
def addLines (skip : List CStr) (m : FuncMap) (text : CStr) : FuncMap :=
  addFunctions skip m ((fgetsAll funcNameMax text).map chomp)

def loadFromCache (skip : List CStr) (env : LoadEnv) (m : FuncMap) (fs : Fs) : Bool × FuncMap :=
  match fs.files (cachefile m) with
  | none => (false, m)
  | some file => if env.openCache then (true, addLines skip m file.text) else (false, m)

/-! ## Loading -/

/-- The loop of `loadFromELF` over the procedures; `false` when a wrapper cannot be written. -/
def addProcedures (skip : List CStr) (env : LoadEnv) :
    List BPatchFunction → FuncMap → Fs → Bool × FuncMap × Fs
  | [], m, fs => (true, m, fs)
  | func :: funcs, m, fs =>
    let r := addFunction skip m func.name
    let w :=
      if m.isWrap && r.1 != uintMax then generateWrapper env r.2 func r.1 fs else (true, r.2, fs)
    if w.1 then addProcedures skip env funcs w.2.1 w.2.2 else w

/-- `loadFromELF` of a map made from a path (`obj == NULL`). -/
def loadFromELF (procedures : CStr → List BPatchFunction) (skip : List CStr) (env : LoadEnv)
    (m : FuncMap) (fs : Fs) : Bool × FuncMap × Fs :=
  match fs.files m.elfPath with
  | none => (false, m, fs)
  | some elf =>
    if !env.openBinary || !env.getProcedures then (false, m, fs)
    else
      let r := addProcedures skip env (procedures elf.text) m fs
      if !r.1 then r
      else
        let c :=
          if r.2.1.isWrap && 0 < r.2.1.funcs.length then compileWrapper env r.2.1 r.2.2 else r
        if !c.1 then c
        else
          let u := updateCache env elf.text c.2.1 c.2.2
          (u.1, c.2.1, u.2)

inductive FuncmapState where
  | cached
  | update
  | enoelf
  | ecache
  deriving DecidableEq

def checkState (env : LoadEnv) (m : FuncMap) (fs : Fs) : FuncmapState :=
  match fs.files m.elfPath with
  | none => .enoelf
  | some elf =>
    if !env.statCache then .ecache
    else
      match fs.files (cachefile m) with
      | none => .update
      | some cache =>
        if cache.mtime < elf.mtime then .update
        else if cache.text.length = 0 then .update
        else .cached

def FuncMap.load (procedures : CStr → List BPatchFunction) (skip : List CStr) (env : LoadEnv)
    (m : FuncMap) (force : Bool) (fs : Fs) : Bool × FuncMap × Fs :=
  if force then loadFromELF procedures skip env m fs
  else
    match checkState env m fs with
    | .cached =>
      let r := loadFromCache skip env m fs
      (r.1, r.2, fs)
    | .update => loadFromELF procedures skip env m fs
    | _ => (false, m, fs)

end Lprofile.Utils
