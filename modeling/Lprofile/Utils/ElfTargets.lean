import Mathlib.Data.List.Perm.Basic
import Lprofile.Utils.Count

/-!
# The targets of each object

`CountUtil` keeps its targets in one vector and, for each object, the list of their
places in it (`elf_targets`). `handleElf` of the `wrap` and `replace` modes goes
through such a list and indexes the vector with what it finds there, unchecked.

The list of an object is the places of its targets, in order (`ElfLists`,
`addTargetFunc_lists`), so the lists partition the places. `handleElf` counts with an
`unsigned int` while the size of the list is a `size_t`: it visits the targets of the
list once each exactly while the list has fewer than 2^32 entries. `matchFunc` ends with
a log of all targets that counts in the same way and does not end on a longer list
either. `handleElf` comes after it, and so visits every target once
(`elf_targets_visited`).
-/

namespace Lprofile.Utils

open Lprofile.Lib Lprofile.Probe

/-! ## Calls of `addTargetFunc` -/

/-- The arguments of a call of `addTargetFunc`. -/
structure TargetCall where
  func : FuncRef
  idx : Nat
  obj : CStr
  user : Bool

def addTargets (calls : List TargetCall) (c : CountUtil) : CountUtil :=
  calls.foldl (fun c t => addTargetFunc c t.func t.idx t.obj t.user) c

/-- The places of the targets of an object. -/
def placesOf (funcs : List TargetFunc) (elf : CStr) : List Nat := funcs.findIdxs (·.elf == elf)

/-- Each list holds the places of the object's targets; an object without targets has none. -/
def ElfLists (c : CountUtil) : Prop :=
  ∀ elf, c.elfTargets elf =
    if placesOf c.targetFuncs elf = [] then none else some (placesOf c.targetFuncs elf)

theorem placesOf_concat (funcs : List TargetFunc) (t : TargetFunc) (elf : CStr) :
    placesOf (funcs ++ [t]) elf =
      placesOf funcs elf ++ if t.elf = elf then [funcs.length] else [] := by
  rw [placesOf, List.findIdxs_append, List.findIdxs_singleton, Nat.zero_add]
  simp only [beq_iff_eq]
  rfl

theorem addTargetFunc_lists {c : CountUtil} (h : ElfLists c) (func : FuncRef) (idx : Nat)
    (obj : CStr) (user : Bool) : ElfLists (addTargetFunc c func idx obj user) := by
  intro elf
  simp only [addTargetFunc, placesOf_concat]
  by_cases helf : elf = obj
  · subst helf
    have hlist : (c.elfTargets elf).getD [] = placesOf c.targetFuncs elf := by
      rw [h elf]
      split
      · rename_i hnil
        exact hnil.symm
      · rfl
    simp [hlist]
  · have helf' : obj ≠ elf := fun e => helf e.symm
    simp only [Function.update_of_ne helf, helf', ↓reduceIte, List.append_nil]
    exact h elf

theorem addTargets_lists (calls : List TargetCall) {c : CountUtil} (h : ElfLists c) :
    ElfLists (addTargets calls c) := by
  induction calls generalizing c with
  | nil => exact h
  | cons t calls ih => exact ih (addTargetFunc_lists h _ _ _ _)

theorem addTargets_funcs (calls : List TargetCall) (c : CountUtil) :
    (addTargets calls c).targetFuncs =
      c.targetFuncs ++ calls.map fun t => ⟨t.func, t.idx, t.obj, t.user⟩ := by
  induction calls generalizing c with
  | nil => exact (List.append_nil _).symm
  | cons t calls ih =>
    rw [addTargets, List.foldl_cons, ← addTargets, ih]
    simp [addTargetFunc]

theorem elfLists_new (pattern : CStr) : ElfLists (.new pattern) := fun _ => rfl

theorem ElfLists.eq_some_iff {c : CountUtil} (h : ElfLists c) {elf : CStr} {list : List Nat} :
    c.elfTargets elf = some list ↔ list ≠ [] ∧ list = placesOf c.targetFuncs elf := by
  rw [h elf]
  split
  · rename_i hnil
    simp [hnil]
  · rename_i hne
    rw [Option.some.injEq]
    exact ⟨fun e => ⟨e ▸ hne, e.symm⟩, fun e => e.2.symm⟩

/-! ## The partition -/

theorem mem_placesOf {funcs : List TargetFunc} {elf : CStr} {i : Nat} :
    i ∈ placesOf funcs elf ↔ ∃ t, funcs[i]? = some t ∧ t.elf = elf := by
  rw [placesOf, List.mem_findIdxs_iff_exists_getElem_pos]
  simp only [List.getElem?_eq_some_iff, beq_iff_eq]
  constructor
  · rintro ⟨hi, he⟩
    exact ⟨funcs[i], ⟨hi, rfl⟩, he⟩
  · rintro ⟨t, ⟨hi, rfl⟩, he⟩
    exact ⟨hi, he⟩

/-- Every place is in one list, that of its target's object, and there once; the lists are strictly
increasing, not empty, and hold places of the vector only. -/
structure Partition (c : CountUtil) : Prop where
  placed : ∀ i t, c.targetFuncs[i]? = some t →
    ∃ list, c.elfTargets t.elf = some list ∧ list.count i = 1
  only : ∀ elf list, c.elfTargets elf = some list →
    ∀ i ∈ list, i < c.targetFuncs.length ∧ ∃ t, c.targetFuncs[i]? = some t ∧ t.elf = elf
  increasing : ∀ elf list, c.elfTargets elf = some list → list.Pairwise (· < ·)
  nonempty : ∀ elf list, c.elfTargets elf = some list → list ≠ []

theorem ElfLists.partition {c : CountUtil} (h : ElfLists c) : Partition c where
  placed i t ht := by
    have hi : i ∈ placesOf c.targetFuncs t.elf := mem_placesOf.2 ⟨t, ht, rfl⟩
    have hnodup : (placesOf c.targetFuncs t.elf).Nodup := List.nodup_findIdxs
    exact ⟨_, h.eq_some_iff.2 ⟨List.ne_nil_of_mem hi, rfl⟩, List.count_eq_one_of_mem hnodup hi⟩
  only elf list hl i hi := by
    rw [(h.eq_some_iff.1 hl).2] at hi
    obtain ⟨t, ht, he⟩ := mem_placesOf.1 hi
    exact ⟨(List.getElem?_eq_some_iff.1 ht).1, t, ht, he⟩
  increasing elf list hl := by
    rw [(h.eq_some_iff.1 hl).2]
    exact List.pairwise_findIdxs
  nonempty elf list hl := (h.eq_some_iff.1 hl).1

/-! ## Visiting the targets of an object -/

/-- The loop of `handleElf`: the targets it passes to `handleFunction`, from `targets[i]` on; `i` is
an `unsigned int`. `none` in the list is an index past the end of the vector; no list at all: the
loop is not done after `fuel` rounds. The log at the end of `matchFunc` has the same loop. -/
def handleLoop (funcs : List TargetFunc) (targets : List Nat) :
    Nat → Nat → Option (List (Option TargetFunc))
  | 0, _ => none
  | fuel + 1, i =>
    match targets[i]? with
    | none => some []
    | some k => (handleLoop funcs targets fuel ((i + 1) % 2 ^ 32)).map (funcs[k]? :: ·)

/-- `handleElf`: nothing is visited if the library with the wrappers cannot be loaded. -/
def handleElf (loadLibrary : CStr → Bool) (funcs : List TargetFunc) (fuel : Nat) (elf : CStr)
    (targets : List Nat) : Option (List (Option TargetFunc)) :=
  if !loadLibrary elf then some [] else handleLoop funcs targets fuel 0

/-- The loop of `process` over the entries of `elf_targets`. -/
def handleElfs (loadLibrary : CStr → Bool) (funcs : List TargetFunc) (fuel : Nat) :
    List (CStr × List Nat) → Option (List (Option TargetFunc))
  | [] => some []
  | (elf, targets) :: elfs =>
    match handleElf loadLibrary funcs fuel elf targets with
    | none => none
    | some visited => (handleElfs loadLibrary funcs fuel elfs).map (visited ++ ·)

theorem handleLoop_ends (funcs : List TargetFunc) {targets : List Nat}
    (hlen : targets.length < 2 ^ 32) : ∀ (fuel i : Nat), i ≤ targets.length →
      targets.length < fuel + i →
      handleLoop funcs targets fuel i = some ((targets.drop i).map (funcs[·]?))
  | 0, i, hi, hfuel => by omega
  | fuel + 1, i, hi, hfuel => by
    unfold handleLoop
    rcases hget : targets[i]? with _ | k
    · rw [List.drop_eq_nil_of_le (List.getElem?_eq_none_iff.1 hget)]
      rfl
    · obtain ⟨hlt, rfl⟩ := List.getElem?_eq_some_iff.1 hget
      have hsucc : (i + 1) % 2 ^ 32 = i + 1 := by omega
      dsimp only
      rw [hsucc, handleLoop_ends funcs hlen fuel (i + 1) hlt (by omega),
        List.drop_eq_getElem_cons hlt]
      rfl

/-- With 2^32 entries the counter wraps around before it reaches the end. -/
theorem handleLoop_hangs (funcs : List TargetFunc) {targets : List Nat}
    (hlen : 2 ^ 32 ≤ targets.length) : ∀ (fuel i : Nat), i < 2 ^ 32 →
      handleLoop funcs targets fuel i = none
  | 0, _, _ => rfl
  | fuel + 1, i, hi => by
    have hget : targets[i]? = some targets[i] := List.getElem?_eq_getElem (by omega)
    have hrest := handleLoop_hangs funcs hlen fuel ((i + 1) % 2 ^ 32) (by omega)
    rw [handleLoop, hget]
    dsimp only
    rw [hrest]
    rfl

/-! ## Visiting all targets -/

/-- `elf_targets` in the order of its keys. -/
def elfEntries (c : CountUtil) : List (CStr × List Nat) :=
  ((c.targetFuncs.map (·.elf)).dedup.mergeSort fun a b => !decide (b < a)).filterMap fun elf =>
    (c.elfTargets elf).map (elf, ·)

/-- The entries of `elf_targets`, in some order. -/
structure Entries (c : CountUtil) (elfs : List (CStr × List Nat)) : Prop where
  keys : (elfs.map Prod.fst).Nodup
  mem : ∀ elf list, (elf, list) ∈ elfs ↔ c.elfTargets elf = some list

theorem elfEntries_spec {c : CountUtil} (h : ElfLists c) : Entries c (elfEntries c) := by
  have hmem : ∀ elf list, (elf, list) ∈ elfEntries c ↔ c.elfTargets elf = some list := by
    intro elf list
    unfold elfEntries
    simp only [List.mem_filterMap, List.mem_mergeSort, List.mem_dedup, List.mem_map,
      Option.map_eq_some_iff, Prod.mk.injEq]
    constructor
    · rintro ⟨elf', -, list', hlist, rfl, rfl⟩
      exact hlist
    · intro hlist
      obtain ⟨hne, rfl⟩ := h.eq_some_iff.1 hlist
      obtain ⟨k, hk⟩ := List.exists_mem_of_ne_nil _ hne
      obtain ⟨t, ht, helf⟩ := mem_placesOf.1 hk
      exact ⟨elf, ⟨t, List.mem_of_getElem? ht, helf⟩, _, hlist, rfl, rfl⟩
  refine ⟨?_, hmem⟩
  have hkeys : (elfEntries c).map Prod.fst =
      ((c.targetFuncs.map (·.elf)).dedup.mergeSort fun a b => !decide (b < a)).filter
        fun elf => (c.elfTargets elf).isSome := by
    rw [elfEntries, List.map_filterMap, ← List.filterMap_eq_filter]
    refine List.filterMap_congr fun elf _ => ?_
    cases helf : c.elfTargets elf <;> simp [Option.guard, helf]
  rw [hkeys]
  exact ((List.mergeSort_perm _ _).nodup_iff.2 (List.nodup_dedup _)).filter _

/-- `handleElf` ends and visits the targets of its object in the order in which they were added, and
all calls of `handleElf` together visit every target whose object has its library exactly once. -/
structure VisitsOnce (c : CountUtil) : Prop where
  inOrder : ∀ elf list, c.elfTargets elf = some list → ∃ fuel,
    handleLoop c.targetFuncs list fuel 0 = some ((c.targetFuncs.filter (·.elf == elf)).map some)
  each : ∀ loadLibrary elfs, Entries c elfs → ∃ fuel visited,
    handleElfs loadLibrary c.targetFuncs fuel elfs = some visited ∧
      visited.Perm ((c.targetFuncs.filter (loadLibrary ·.elf)).map some)

theorem map_getElem?_findIdxs (p : TargetFunc → Bool) (funcs : List TargetFunc) :
    (funcs.findIdxs p).map (funcs[·]?) = (funcs.filter p).map some := by
  induction funcs using List.reverseRecOn with
  | nil => rfl
  | append_singleton funcs t ih =>
    have hold : (funcs.findIdxs p).map ((funcs ++ [t])[·]?) =
        (funcs.findIdxs p).map (funcs[·]?) := by
      refine List.map_congr_left fun i hi => List.getElem?_append_left ?_
      exact (List.mem_findIdxs_iff_exists_getElem_pos.1 hi).1
    rw [List.findIdxs_append, List.map_append, hold, ih, List.filter_append, List.map_append,
      List.findIdxs_singleton]
    by_cases hp : p t = true <;> simp [hp]

theorem handleElfs_ends (loadLibrary : CStr → Bool) (funcs : List TargetFunc) {fuel : Nat} :
    ∀ elfs : List (CStr × List Nat),
      (∀ e ∈ elfs, e.2.length < 2 ^ 32 ∧ e.2.length < fuel) →
      handleElfs loadLibrary funcs fuel elfs =
        some (((elfs.filter (loadLibrary ·.1)).flatMap Prod.snd).map (funcs[·]?))
  | [], _ => rfl
  | (elf, targets) :: elfs, h => by
    obtain ⟨⟨hlen, hfuel⟩, hrest⟩ := List.forall_mem_cons.1 h
    have hloop := handleLoop_ends funcs hlen fuel 0 (Nat.zero_le _) hfuel
    rw [handleElfs, handleElf, handleElfs_ends loadLibrary funcs elfs hrest, hloop,
      List.drop_zero, List.filter_cons]
    cases loadLibrary elf <;> simp

/-- The lists of different objects have no place in common. -/
theorem Entries.perm {c : CountUtil} (h : ElfLists c) {elfs : List (CStr × List Nat)}
    (he : Entries c elfs) (p : CStr → Bool) :
    ((elfs.filter (p ·.1)).flatMap Prod.snd).Perm (c.targetFuncs.findIdxs (p ·.elf)) := by
  have hplaces : ∀ e ∈ elfs, e.2 = placesOf c.targetFuncs e.1 := fun e hmem =>
    (h.eq_some_iff.1 ((he.mem e.1 e.2).1 hmem)).2
  have hnodup : ((elfs.filter (p ·.1)).flatMap Prod.snd).Nodup := by
    have hkeys := (List.pairwise_map.1 he.keys).filter (p ·.1)
    refine List.nodup_flatMap.2 ⟨fun e hmem => ?_, hkeys.imp_of_mem fun {e e'} hmem hmem' hne => ?_⟩
    · rw [hplaces e (List.mem_filter.1 hmem).1]
      exact List.nodup_findIdxs
    · intro i hi hi'
      rw [hplaces e (List.mem_filter.1 hmem).1] at hi
      rw [hplaces e' (List.mem_filter.1 hmem').1] at hi'
      obtain ⟨t, ht, helf⟩ := mem_placesOf.1 hi
      obtain ⟨t', ht', helf'⟩ := mem_placesOf.1 hi'
      obtain rfl : t = t' := Option.some.inj (ht.symm.trans ht')
      exact hne (helf.symm.trans helf')
  refine (List.perm_ext_iff_of_nodup hnodup List.nodup_findIdxs).2 fun i =>
    ⟨fun hi => ?_, fun hi => ?_⟩
  · obtain ⟨e, hmem, hi⟩ := List.mem_flatMap.1 hi
    obtain ⟨hmem, hp⟩ := List.mem_filter.1 hmem
    rw [hplaces e hmem] at hi
    obtain ⟨t, ht, helf⟩ := mem_placesOf.1 hi
    obtain ⟨hlt, rfl⟩ := List.getElem?_eq_some_iff.1 ht
    exact List.mem_findIdxs_iff_exists_getElem_pos.2 ⟨hlt, by rwa [helf]⟩
  · obtain ⟨hlt, hp⟩ := List.mem_findIdxs_iff_exists_getElem_pos.1 hi
    have hplace : i ∈ placesOf c.targetFuncs c.targetFuncs[i].elf :=
      mem_placesOf.2 ⟨_, List.getElem?_eq_getElem hlt, rfl⟩
    have hlist := h.eq_some_iff.2 ⟨List.ne_nil_of_mem hplace, rfl⟩
    exact List.mem_flatMap.2 ⟨_, List.mem_filter.2 ⟨(he.mem _ _).2 hlist, hp⟩, hplace⟩

/-- The targets are visited once each exactly while every list is shorter than 2^32. -/
theorem ElfLists.visitsOnce_iff {c : CountUtil} (h : ElfLists c) :
    VisitsOnce c ↔ ∀ elf, (placesOf c.targetFuncs elf).length < 2 ^ 32 := by
  constructor
  · intro hvisits elf
    by_contra hlen
    have hne : placesOf c.targetFuncs elf ≠ [] := by
      rintro e
      rw [e] at hlen
      exact hlen (by decide)
    obtain ⟨fuel, hloop⟩ := hvisits.inOrder elf _ (h.eq_some_iff.2 ⟨hne, rfl⟩)
    rw [handleLoop_hangs _ (by omega) fuel 0 (by decide)] at hloop
    cases hloop
  · intro hlen
    refine ⟨fun elf list hl => ?_, fun loadLibrary elfs he => ?_⟩
    · rw [(h.eq_some_iff.1 hl).2]
      refine ⟨(placesOf c.targetFuncs elf).length + 1, ?_⟩
      rw [handleLoop_ends _ (hlen elf) _ 0 (Nat.zero_le _) (Nat.lt_succ_self _), List.drop_zero,
        placesOf, map_getElem?_findIdxs]
    · have hfits : ∀ e ∈ elfs, e.2.length < 2 ^ 32 ∧ e.2.length < c.targetFuncs.length + 1 := by
        intro e hmem
        rw [(h.eq_some_iff.1 ((he.mem e.1 e.2).1 hmem)).2]
        refine ⟨hlen e.1, Nat.lt_succ_of_le ?_⟩
        rw [placesOf, List.length_findIdxs]
        exact List.countP_le_length
      refine ⟨_, _, handleElfs_ends loadLibrary c.targetFuncs elfs hfits, ?_⟩
      rw [← map_getElem?_findIdxs]
      exact (he.perm h loadLibrary).map _

/-! ## The callers -/

/-- A function named `_init` or `_fini`, and whether a callback can be put into its module. -/
structure CallbackFunc where
  func : FuncRef
  module : Nat
  objName : CStr
  inserts : Bool

/-- `LPROFILE_MODE_PROC` and `LPROFILE_MODE_EDIT`. -/
inductive Mode where
  | proc
  | edit
  deriving DecidableEq

/-- The loop of `insertInit` and `insertExit`: the first function that is not skipped. -/
def insertCallback (skip : CallbackFunc → Bool) : List CallbackFunc → CountUtil → Bool × CountUtil
  | [], c => (true, c)
  | f :: funcs, c =>
    if skip f then insertCallback skip funcs c
    else if !f.inserts then (false, c)
    else (true, addTargetFunc c f.func uintMax f.objName false)

/-- `initret` is what the call of the init function in a running process returns. -/
def insertInit (mode : Mode) (initret : Int) (targetElf : CStr) (funcs : List CallbackFunc)
    (c : CountUtil) : Bool × CountUtil :=
  match mode with
  | .proc => (initret == 0, c)
  | .edit => if funcs.isEmpty then (false, c) else insertCallback (·.objName != targetElf) funcs c

/-- `mainmod` is the module of `main`, if there is one. -/
def insertExit (mode : Mode) (mainmod : Option Nat) (targetElf : CStr) (funcs : List CallbackFunc)
    (c : CountUtil) : Bool × CountUtil :=
  match mode, mainmod with
  | .proc, none => (false, c)
  | .proc, some m => insertCallback (·.module != m) funcs c
  | .edit, _ => insertCallback (·.objName != targetElf) funcs c

/-- `c'` is `c` after some calls of `addTargetFunc`. -/
def AddsTargets (c c' : CountUtil) : Prop := ∃ calls, c' = addTargets calls c

theorem AddsTargets.refl (c : CountUtil) : AddsTargets c c := ⟨[], rfl⟩

theorem AddsTargets.add (c : CountUtil) (func : FuncRef) (idx : Nat) (obj : CStr) (user : Bool) :
    AddsTargets c (addTargetFunc c func idx obj user) := ⟨[⟨func, idx, obj, user⟩], rfl⟩

theorem AddsTargets.trans {c c' c'' : CountUtil} :
    AddsTargets c c' → AddsTargets c' c'' → AddsTargets c c'' := by
  rintro ⟨calls, rfl⟩ ⟨calls', rfl⟩
  exact ⟨calls ++ calls', List.foldl_append.symm⟩

theorem addsTargets_foldl {α : Type} {f : CountUtil → α → CountUtil}
    (h : ∀ c a, AddsTargets c (f c a)) (as : List α) (c : CountUtil) :
    AddsTargets c (as.foldl f c) := by
  induction as generalizing c with
  | nil => exact .refl c
  | cons a as ih => exact (h c a).trans (ih _)

section

variable (findFunction : BPatchObject → CStr → List BPatchFunction)

theorem addsTargets_matchFunc (obj : BPatchObject) (fmap : FuncMap) (pattern : CStr)
    (c : CountUtil) : AddsTargets c (matchFunc findFunction obj fmap pattern c) := by
  refine addsTargets_foldl (fun c f => ?_) _ c
  dsimp only
  split
  · exact .refl c
  · exact .add c _ _ _ _

theorem addsTargets_matchFuncs (obj : BPatchObject) (fmap : FuncMap) (pattern : CStr)
    (c : CountUtil) : AddsTargets c (matchFuncs findFunction obj fmap pattern c) :=
  addsTargets_foldl (fun c p => addsTargets_matchFunc findFunction obj fmap p c) _ c

variable (skip : List CStr) (env : BPatchObject → LoadEnv) (isWrap : Bool)

theorem addsTargets_loadTargets (objs : List BPatchObject) (c : CountUtil) (fs : Fs) :
    AddsTargets c (loadTargets findFunction skip env isWrap objs c fs).2.1 := by
  induction objs generalizing c fs with
  | nil => exact .refl c
  | cons obj objs ih =>
    simp only [loadTargets]
    split
    · exact (addsTargets_matchFuncs findFunction obj _ _ c).trans (ih _ _)
    · exact .refl c

theorem addsTargets_getTargetFuncs (objs : List BPatchObject) (c : CountUtil) (fs : Fs) :
    AddsTargets c (getTargetFuncs findFunction skip env isWrap objs c fs).2.1 := by
  have h := addsTargets_loadTargets findFunction skip env isWrap (getUserObjs objs) c fs
  unfold getTargetFuncs
  dsimp only
  split
  · exact h
  · split <;> exact h

end

theorem addsTargets_insertCallback (skip : CallbackFunc → Bool) (funcs : List CallbackFunc)
    (c : CountUtil) : AddsTargets c (insertCallback skip funcs c).2 := by
  induction funcs with
  | nil => exact .refl c
  | cons f funcs ih =>
    unfold insertCallback
    split
    · exact ih
    · split
      · exact .refl c
      · exact .add c _ _ _ _

theorem addsTargets_insertInit (mode : Mode) (initret : Int) (targetElf : CStr)
    (funcs : List CallbackFunc) (c : CountUtil) :
    AddsTargets c (insertInit mode initret targetElf funcs c).2 := by
  unfold insertInit
  split
  · exact .refl c
  · split
    · exact .refl c
    · exact addsTargets_insertCallback _ _ _

theorem addsTargets_insertExit (mode : Mode) (mainmod : Option Nat) (targetElf : CStr)
    (funcs : List CallbackFunc) (c : CountUtil) :
    AddsTargets c (insertExit mode mainmod targetElf funcs c).2 := by
  unfold insertExit
  split
  · exact .refl c
  · exact addsTargets_insertCallback _ _ _
  · exact addsTargets_insertCallback _ _ _

/-- The lists of a session that looks for its targets and puts in its callbacks partition the
targets. -/
theorem session_partition (findFunction : BPatchObject → CStr → List BPatchFunction)
    (skip : List CStr) (env : BPatchObject → LoadEnv) (isWrap : Bool) (objs : List BPatchObject)
    (pattern : CStr) (fs : Fs) (mode : Mode) (initret : Int) (mainmod : Option Nat)
    (targetElf : CStr) (inits finis : List CallbackFunc) :
    let c := (getTargetFuncs findFunction skip env isWrap objs (.new pattern) fs).2.1
    Partition (insertExit mode mainmod targetElf finis
      (insertInit mode initret targetElf inits c).2).2 := by
  intro c
  have hrun : AddsTargets (.new pattern) (insertExit mode mainmod targetElf finis
      (insertInit mode initret targetElf inits c).2).2 :=
    ((addsTargets_getTargetFuncs findFunction skip env isWrap objs (.new pattern) fs).trans
      (addsTargets_insertInit mode initret targetElf inits c)).trans
      (addsTargets_insertExit mode mainmod targetElf finis _)
  obtain ⟨calls, hcalls⟩ := hrun
  rw [hcalls]
  exact (addTargets_lists calls (elfLists_new pattern)).partition

/-! ## The log of `matchFunc` -/

/-- The loops at the end of `matchFunc`: the targets that are logged, object by object. -/
def logTargets (funcs : List TargetFunc) (fuel : Nat) :
    List (CStr × List Nat) → Option (List (Option TargetFunc))
  | [] => some []
  | (_, targets) :: elfs => do
    let logged ← handleLoop funcs targets fuel 0
    let rest ← logTargets funcs fuel elfs
    some (logged ++ rest)

section

variable (findFunction : BPatchObject → CStr → List BPatchFunction)

/-- `CountUtil::matchFunc` to its end: the targets are added and then all are logged. -/
def CountUtil.matchFunc (obj : BPatchObject) (fmap : FuncMap) (fuel : Nat) (pattern : CStr)
    (c : CountUtil) : Option CountUtil :=
  let c := Utils.matchFunc findFunction obj fmap pattern c
  (logTargets c.targetFuncs fuel (elfEntries c)).map fun _ => c

def CountUtil.matchFuncs (obj : BPatchObject) (fmap : FuncMap) (fuel : Nat) (pattern : CStr)
    (c : CountUtil) : Option CountUtil :=
  (subPatterns pattern).foldlM (fun c p => c.matchFunc findFunction obj fmap fuel p) c

variable (skip : List CStr) (env : BPatchObject → LoadEnv) (isWrap : Bool)

def CountUtil.loadTargets (fuel : Nat) :
    List BPatchObject → CountUtil → Fs → Option (Bool × CountUtil × Fs)
  | [], c, fs => some (true, c, fs)
  | obj :: objs, c, fs =>
    let r := FuncMap.load (fun _ => obj.functions) skip (env obj)
      (FuncMap.ofPath obj.pathName isWrap) true fs
    if r.1 then do
      let c ← c.matchFuncs findFunction obj r.2.1 fuel c.pattern
      CountUtil.loadTargets fuel objs c r.2.2
    else some (false, c, r.2.2)

def CountUtil.getTargetFuncs (fuel : Nat) (allobjs : List BPatchObject) (c : CountUtil)
    (fs : Fs) : Option (Bool × CountUtil × Fs) := do
  let r ← CountUtil.loadTargets findFunction skip env isWrap fuel (getUserObjs allobjs) c fs
  if !r.1 then some r
  else if r.2.1.targetFuncs.length = 0 then some (false, r.2)
  else some r

end

/-- Every object has fewer than 2^32 targets. -/
def Short (c : CountUtil) : Prop := ∀ elf, (placesOf c.targetFuncs elf).length < 2 ^ 32

theorem logTargets_eq (funcs : List TargetFunc) (fuel : Nat) :
    ∀ elfs, logTargets funcs fuel elfs = handleElfs (fun _ => true) funcs fuel elfs
  | [] => rfl
  | (elf, targets) :: elfs => by
    simp only [logTargets, handleElfs, handleElf, logTargets_eq funcs fuel elfs]
    rcases handleLoop funcs targets fuel 0 with _ | logged
    · rfl
    · rcases handleElfs (fun _ => true) funcs fuel elfs with _ | rest <;> rfl

/-- The log ends only if every list is short. -/
theorem ElfLists.short_of_log {c : CountUtil} (h : ElfLists c) {fuel : Nat}
    {logged : List (Option TargetFunc)}
    (hlog : logTargets c.targetFuncs fuel (elfEntries c) = some logged) : Short c := by
  have hends : ∀ (elfs : List (CStr × List Nat)) (logged : List (Option TargetFunc)),
      logTargets c.targetFuncs fuel elfs = some logged → ∀ e ∈ elfs, e.2.length < 2 ^ 32 := by
    intro elfs
    induction elfs with
    | nil =>
      intro _ _ e he
      cases he
    | cons x elfs ih =>
      intro logged hx e he
      simp only [logTargets, Option.bind_eq_bind, Option.bind_eq_some_iff] at hx
      obtain ⟨v, hv, w, hw, -⟩ := hx
      rcases List.mem_cons.1 he with rfl | he
      · by_contra hlen
        rw [handleLoop_hangs _ (by omega) fuel 0 (by decide)] at hv
        cases hv
      · exact ih w hw e he
  intro elf
  by_cases hnil : placesOf c.targetFuncs elf = []
  · rw [hnil]
    decide
  · exact hends _ _ hlog (elf, placesOf c.targetFuncs elf)
      (((elfEntries_spec h).mem _ _).2 (h.eq_some_iff.2 ⟨hnil, rfl⟩))

/-- The log of short lists ends. -/
theorem ElfLists.log_ends {c : CountUtil} (h : ElfLists c) (hs : Short c) {fuel : Nat}
    (hfuel : c.targetFuncs.length < fuel) :
    ∃ logged, logTargets c.targetFuncs fuel (elfEntries c) = some logged := by
  rw [logTargets_eq]
  refine ⟨_, handleElfs_ends _ _ _ fun e he => ?_⟩
  rw [(h.eq_some_iff.1 (((elfEntries_spec h).mem e.1 e.2).1 he)).2]
  refine ⟨hs e.1, lt_of_le_of_lt ?_ hfuel⟩
  rw [placesOf, List.length_findIdxs]
  exact List.countP_le_length

/-- Short, and `fuel` is enough for the log. -/
structure Fits (fuel : Nat) (c : CountUtil) : Prop where
  short : Short c
  fuel : c.targetFuncs.length < fuel

theorem AddsTargets.lists {c c' : CountUtil} (ha : AddsTargets c c') (h : ElfLists c) :
    ElfLists c' := by
  obtain ⟨calls, rfl⟩ := ha
  exact addTargets_lists calls h

/-- What fits after more targets fits before. -/
theorem AddsTargets.fits {c c' : CountUtil} {fuel : Nat} (ha : AddsTargets c c')
    (hf : Fits fuel c') : Fits fuel c := by
  obtain ⟨calls, rfl⟩ := ha
  obtain ⟨hshort, hfuel⟩ := hf
  rw [addTargets_funcs, List.length_append] at hfuel
  refine ⟨fun elf => lt_of_le_of_lt ?_ (hshort elf), by omega⟩
  rw [addTargets_funcs, placesOf, placesOf, List.findIdxs_append, List.length_append]
  exact Nat.le_add_right _ _

section

variable {findFunction : BPatchObject → CStr → List BPatchFunction} {obj : BPatchObject}
  {fmap : FuncMap} {fuel : Nat} {pattern : CStr} {c c' : CountUtil}

/-- When `matchFunc` returns, it has added its targets, and every list is short. -/
theorem matchFunc_returns (h : ElfLists c)
    (hr : c.matchFunc findFunction obj fmap fuel pattern = some c') :
    c' = matchFunc findFunction obj fmap pattern c ∧ ElfLists c' ∧ Short c' := by
  obtain ⟨logged, hlog, rfl⟩ := Option.map_eq_some_iff.1 hr
  have hlists := (addsTargets_matchFunc findFunction obj fmap pattern c).lists h
  exact ⟨rfl, hlists, hlists.short_of_log hlog⟩

theorem matchFunc_ends (h : ElfLists c)
    (hf : Fits fuel (matchFunc findFunction obj fmap pattern c)) :
    c.matchFunc findFunction obj fmap fuel pattern =
      some (matchFunc findFunction obj fmap pattern c) := by
  have hlists := (addsTargets_matchFunc findFunction obj fmap pattern c).lists h
  obtain ⟨logged, hlog⟩ := hlists.log_ends hf.short hf.fuel
  exact Option.map_eq_some_iff.2 ⟨logged, hlog, rfl⟩

theorem matchFuncs_returns (h : ElfLists c) (hs : Short c)
    (hr : c.matchFuncs findFunction obj fmap fuel pattern = some c') :
    c' = matchFuncs findFunction obj fmap pattern c ∧ ElfLists c' ∧ Short c' := by
  unfold CountUtil.matchFuncs at hr
  unfold matchFuncs
  generalize subPatterns pattern = ps at hr ⊢
  induction ps generalizing c with
  | nil =>
    cases hr
    exact ⟨rfl, h, hs⟩
  | cons p ps ih =>
    rw [List.foldlM_cons] at hr
    obtain ⟨c₁, h₁, hr⟩ := Option.bind_eq_some_iff.1 hr
    obtain ⟨rfl, hlists, hshort⟩ := matchFunc_returns h h₁
    exact ih hlists hshort hr

theorem matchFuncs_ends (h : ElfLists c)
    (hf : Fits fuel (matchFuncs findFunction obj fmap pattern c)) :
    c.matchFuncs findFunction obj fmap fuel pattern =
      some (matchFuncs findFunction obj fmap pattern c) := by
  unfold CountUtil.matchFuncs
  unfold matchFuncs at hf ⊢
  generalize subPatterns pattern = ps at hf ⊢
  induction ps generalizing c with
  | nil => rfl
  | cons p ps ih =>
    have hp := addsTargets_matchFunc findFunction obj fmap p c
    have hps := addsTargets_foldl (fun c p => addsTargets_matchFunc findFunction obj fmap p c) ps
      (matchFunc findFunction obj fmap p c)
    rw [List.foldlM_cons, matchFunc_ends h (hps.fits hf)]
    exact ih (hp.lists h) hf

variable {skip : List CStr} {env : BPatchObject → LoadEnv} {isWrap : Bool}

theorem loadTargets_returns : ∀ {objs : List BPatchObject} {c : CountUtil} {fs : Fs}
    {r : Bool × CountUtil × Fs}, ElfLists c → Short c →
      CountUtil.loadTargets findFunction skip env isWrap fuel objs c fs = some r →
      r = loadTargets findFunction skip env isWrap objs c fs ∧ ElfLists r.2.1 ∧ Short r.2.1
  | [], _, _, _, h, hs, hr => by
    cases hr
    exact ⟨rfl, h, hs⟩
  | obj :: objs, c, fs, r, h, hs, hr => by
    simp only [CountUtil.loadTargets, loadTargets] at hr ⊢
    split at hr
    · rename_i hload
      obtain ⟨c₁, h₁, hr⟩ := Option.bind_eq_some_iff.1 hr
      obtain ⟨rfl, hlists, hshort⟩ := matchFuncs_returns h hs h₁
      rw [if_pos hload]
      exact loadTargets_returns hlists hshort hr
    · rename_i hload
      cases hr
      rw [if_neg hload]
      exact ⟨rfl, h, hs⟩

theorem loadTargets_ends : ∀ {objs : List BPatchObject} {c : CountUtil} {fs : Fs}, ElfLists c →
    Fits fuel (loadTargets findFunction skip env isWrap objs c fs).2.1 →
      CountUtil.loadTargets findFunction skip env isWrap fuel objs c fs =
        some (loadTargets findFunction skip env isWrap objs c fs)
  | [], _, _, _, _ => rfl
  | obj :: objs, c, fs, h, hf => by
    simp only [CountUtil.loadTargets, loadTargets] at hf ⊢
    split
    · rename_i hload
      rw [if_pos hload] at hf
      have hadds := addsTargets_matchFuncs findFunction obj
        (FuncMap.load (fun _ => obj.functions) skip (env obj) (FuncMap.ofPath obj.pathName isWrap)
          true fs).2.1 c.pattern c
      have hrest := addsTargets_loadTargets findFunction skip env isWrap objs
      rw [matchFuncs_ends h ((hrest _ _).fits hf)]
      exact loadTargets_ends (hadds.lists h) hf
    · rfl

theorem getTargetFuncs_returns {objs : List BPatchObject} {fs : Fs} {r : Bool × CountUtil × Fs}
    (h : ElfLists c) (hs : Short c)
    (hr : CountUtil.getTargetFuncs findFunction skip env isWrap fuel objs c fs = some r) :
    r = getTargetFuncs findFunction skip env isWrap objs c fs ∧ ElfLists r.2.1 ∧ Short r.2.1 := by
  obtain ⟨q, hq, hr⟩ := Option.bind_eq_some_iff.1 hr
  obtain ⟨rfl, hlists, hshort⟩ := loadTargets_returns h hs hq
  unfold getTargetFuncs
  dsimp only
  split at hr
  · rename_i hload
    cases hr
    rw [if_pos hload]
    exact ⟨rfl, hlists, hshort⟩
  · rename_i hload
    rw [if_neg hload]
    split at hr
    · rename_i hnone
      cases hr
      rw [if_pos hnone]
      exact ⟨rfl, hlists, hshort⟩
    · rename_i hsome
      cases hr
      rw [if_neg hsome]
      exact ⟨rfl, hlists, hshort⟩

theorem getTargetFuncs_ends {objs : List BPatchObject} {fs : Fs} (h : ElfLists c)
    (hf : Fits fuel (getTargetFuncs findFunction skip env isWrap objs c fs).2.1) :
    CountUtil.getTargetFuncs findFunction skip env isWrap fuel objs c fs =
      some (getTargetFuncs findFunction skip env isWrap objs c fs) := by
  have hload : (getTargetFuncs findFunction skip env isWrap objs c fs).2.1 =
      (loadTargets findFunction skip env isWrap (getUserObjs objs) c fs).2.1 := by
    unfold getTargetFuncs
    dsimp only
    split
    · rfl
    · split <;> rfl
  rw [hload] at hf
  rw [CountUtil.getTargetFuncs, loadTargets_ends h hf, getTargetFuncs, Option.bind_eq_bind,
    Option.bind_some]
  split
  · rfl
  · split <;> rfl

end

theorem short_new (pattern : CStr) : Short (.new pattern) := fun _ => by
  rw [CountUtil.new, placesOf, List.findIdxs_nil]
  decide

/-- `getTargetFuncs` returns exactly if no object gets 2^32 targets. -/
theorem getTargetFuncs_returns_iff (findFunction : BPatchObject → CStr → List BPatchFunction)
    (skip : List CStr) (env : BPatchObject → LoadEnv) (isWrap : Bool) (objs : List BPatchObject)
    (pattern : CStr) (fs : Fs) :
    (∃ fuel r, CountUtil.getTargetFuncs findFunction skip env isWrap fuel objs (.new pattern) fs =
      some r) ↔ Short (getTargetFuncs findFunction skip env isWrap objs (.new pattern) fs).2.1 := by
  have hlists := elfLists_new pattern
  constructor
  · rintro ⟨fuel, r, hr⟩
    obtain ⟨rfl, -, hshort⟩ := getTargetFuncs_returns hlists (short_new pattern) hr
    exact hshort
  · intro hshort
    exact ⟨_, _, getTargetFuncs_ends hlists ⟨hshort, Nat.lt_succ_self _⟩⟩

/-- **The lists partition the targets at every point, and `handleElf` visits every target once.**
The lists are those after any calls of `addTargetFunc`; `handleElf` gets them after the log of
`matchFunc` has ended, and from `getTargetFuncs` when it has returned. -/
theorem elf_targets_visited (pattern : CStr) :
    (∀ calls, Partition (addTargets calls (.new pattern)) ∧
      ∀ fuel logged, logTargets (addTargets calls (.new pattern)).targetFuncs fuel
        (elfEntries (addTargets calls (.new pattern))) = some logged →
          VisitsOnce (addTargets calls (.new pattern))) ∧
    ∀ findFunction skip env isWrap fuel objs fs r,
      CountUtil.getTargetFuncs findFunction skip env isWrap fuel objs (.new pattern) fs = some r →
        r = getTargetFuncs findFunction skip env isWrap objs (.new pattern) fs ∧
          Partition r.2.1 ∧ VisitsOnce r.2.1 := by
  refine ⟨fun calls => ?_, fun findFunction skip env isWrap fuel objs fs r hr => ?_⟩
  · have hlists := addTargets_lists calls (elfLists_new pattern)
    exact ⟨hlists.partition, fun fuel logged hlog => hlists.visitsOnce_iff.2
      (hlists.short_of_log hlog)⟩
  · obtain ⟨hr, hlists, hshort⟩ :=
      getTargetFuncs_returns (elfLists_new pattern) (short_new pattern) hr
    exact ⟨hr, hlists.partition, hlists.visitsOnce_iff.2 hshort⟩

/-- The targets of a program and of its library, all of whose functions match. -/
def twoTargets : Bool × CountUtil × Fs :=
  getTargetFuncs (fun o _ => o.functions) [] (fun _ => .granting) true [mainObj, libObj]
    (.new patternAll) mutateeFs

theorem elf_targets_visited_two :
    ∃ fuel, CountUtil.getTargetFuncs (fun o _ => o.functions) [] (fun _ => .granting) true fuel
        [mainObj, libObj] (.new patternAll) mutateeFs = some twoTargets ∧
      Partition twoTargets.2.1 ∧ VisitsOnce twoTargets.2.1 ∧
      twoTargets.2.1.elfTargets "prog".toList = some [0, 1] ∧
      twoTargets.2.1.elfTargets "libbar.so".toList = some [2] := by
  have hlen : twoTargets.2.1.targetFuncs.length = 3 := by decide +kernel
  have hshort : Short twoTargets.2.1 := fun elf => by
    refine lt_of_le_of_lt (b := 3) ?_ (by decide)
    rw [placesOf, List.length_findIdxs, ← hlen]
    exact List.countP_le_length
  obtain ⟨fuel, r, hr⟩ := (getTargetFuncs_returns_iff (fun o _ => o.functions) []
    (fun _ => .granting) true [mainObj, libObj] patternAll mutateeFs).2 hshort
  obtain ⟨rfl, hpart, hvisits⟩ := (elf_targets_visited patternAll).2 _ _ _ _ _ _ _ _ hr
  exact ⟨fuel, hr, hpart, hvisits, by decide +kernel, by decide +kernel⟩

end Lprofile.Utils
