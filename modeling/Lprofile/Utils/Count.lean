import Mathlib.Data.List.Infix
import Lprofile.Utils.Load

/-!
# Target functions

`CountUtil` collects the functions to be probed (`count.cc`): for each user object
of the mutatee a function map of its own is loaded, and the functions of the
object that match the pattern become targets, under their numbers in this map.
`insertCount` puts the number, and nothing else, into the probe calls.

Dyninst is what an object says about itself and the parameter `findFunction`:
the functions of an object that match a pattern. Opening the path of an object
gives its own functions. Log lines are left out.
-/

namespace Lprofile.Utils

open Lprofile.Lib Lprofile.Probe

/-- `BPatch_object`; `id` is the pointer, `functions` are the functions it defines. -/
structure BPatchObject where
  id : Nat
  name : CStr
  pathName : CStr
  isSystemLib : Bool
  functions : List BPatchFunction

/-- A `BPatch_function` of the mutatee: the object and the function in it. -/
structure FuncRef where
  obj : Nat
  func : BPatchFunction
  deriving DecidableEq

structure TargetFunc where
  func : FuncRef
  index : Nat
  elf : CStr
  isUser : Bool
  deriving DecidableEq

structure CountUtil where
  pattern : CStr
  targetFuncs : List TargetFunc
  elfTargets : CStr → Option (List Nat)

def patternAll : CStr := "(.*)".toList

/-- `CountUtil()` after `setPattern`. -/
def CountUtil.new (pattern : CStr) : CountUtil := ⟨pattern, [], fun _ => none⟩

/-! ## Objects -/

def skiplib : List CStr := ["libpapi".toList, "libpfm".toList]

def osprefix : List CStr := ["/usr/lib64/".toList, "/lib64/".toList, "/usr/local/gcc/".toList]

def isUserObj (obj : BPatchObject) : Bool :=
  if obj.isSystemLib then false
  else if osprefix.any fun str => decide (str <+: obj.pathName) then false
  else !skiplib.any fun str => decide (str <:+: obj.name)

def getUserObjs (allobjs : List BPatchObject) : List BPatchObject := allobjs.filter isUserObj

/-! ## Matching -/

/-- The loop of `matchFuncs`: the substrings it passes to `matchFunc`, from `cur` on, where `pos` is
the next comma and `none` is `npos`. -/
def patternLoop (pattern : CStr) : Nat → Option Nat → Nat → List CStr
  | 0, _, _ => []
  | _ + 1, none, cur => [pattern.drop cur]
  | fuel + 1, some pos, cur =>
    let sub := substr pattern cur (pos - cur)
    if pattern.length ≤ pos + 1 then [sub]
    else sub :: patternLoop pattern fuel (find pattern ',' (pos + 1)) (pos + 1)

/-- The loop moves on past a comma in each round, so that the length is fuel enough
(`patternLoop_fuel`). -/
def subPatterns (pattern : CStr) : List CStr :=
  patternLoop pattern (pattern.length + 1) (find pattern ',' 0) 0

theorem patternLoop_fuel {pattern : CStr} {fuel fuel' cur : Nat} (h : pattern.length < fuel + cur)
    (h' : pattern.length < fuel' + cur) (h0 : 0 < fuel) (h0' : 0 < fuel') :
    patternLoop pattern fuel (find pattern ',' cur) cur =
      patternLoop pattern fuel' (find pattern ',' cur) cur := by
  induction fuel generalizing fuel' cur with
  | zero => omega
  | succ fuel ih =>
    obtain ⟨fuel', rfl⟩ : ∃ j, fuel' = j + 1 := ⟨fuel' - 1, by omega⟩
    rcases hpos : find pattern ',' cur with _ | pos
    · rfl
    · have hle := find_bounds hpos
      simp only [patternLoop]
      split
      · rfl
      · exact congrArg _ (ih (by omega) (by omega) (by omega) (by omega))

def addTargetFunc (c : CountUtil) (func : FuncRef) (idx : Nat) (obj : CStr) (user : Bool) :
    CountUtil :=
  let list := (c.elfTargets obj).getD []
  { c with
    targetFuncs := c.targetFuncs ++ [⟨func, idx, obj, user⟩]
    elfTargets := Function.update c.elfTargets obj (some (list ++ [c.targetFuncs.length])) }

section

variable (findFunction : BPatchObject → CStr → List BPatchFunction)

/-- The targets that `matchFunc` adds. It then logs all the targets, which changes nothing but need
not end (`CountUtil.matchFunc`). -/
def matchFunc (obj : BPatchObject) (fmap : FuncMap) (pattern : CStr) (c : CountUtil) : CountUtil :=
  (findFunction obj pattern).foldl (fun c f =>
    let index := getFunctionID fmap f.name
    if index = uintMax then c else addTargetFunc c ⟨obj.id, f⟩ index obj.name true) c

def matchFuncs (obj : BPatchObject) (fmap : FuncMap) (pattern : CStr) (c : CountUtil) : CountUtil :=
  (subPatterns pattern).foldl (fun c p => matchFunc findFunction obj fmap p c) c

variable (skip : List CStr) (env : BPatchObject → LoadEnv) (isWrap : Bool)

/-- The loop of `getTargetFuncs` over the user objects. -/
def loadTargets : List BPatchObject → CountUtil → Fs → Bool × CountUtil × Fs
  | [], c, fs => (true, c, fs)
  | obj :: objs, c, fs =>
    let r := FuncMap.load (fun _ => obj.functions) skip (env obj)
      (FuncMap.ofPath obj.pathName isWrap) true fs
    if r.1 then loadTargets objs (matchFuncs findFunction obj r.2.1 c.pattern c) r.2.2
    else (false, c, r.2.2)

def getTargetFuncs (allobjs : List BPatchObject) (c : CountUtil) (fs : Fs) :
    Bool × CountUtil × Fs :=
  let r := loadTargets findFunction skip env isWrap (getUserObjs allobjs) c fs
  if !r.1 then r
  else if r.2.1.targetFuncs.length = 0 then (false, r.2)
  else r

end

/-! ## Probes -/

inductive ProbeFunc where
  | pre
  | post
  deriving DecidableEq

/-- A call put into a function of the mutatee: the probe, and its argument. -/
structure Snippet where
  func : FuncRef
  callee : ProbeFunc
  id : Nat
  deriving DecidableEq

/-- What Dyninst answers for a function: are there entry and exit points, and do insertions work. -/
structure InsertEnv where
  entryPoint : FuncRef → Bool
  exitPoint : FuncRef → Bool
  insertPre : FuncRef → Bool
  insertPost : FuncRef → Bool

def insertCount (env : InsertEnv) : List TargetFunc → Bool × List Snippet
  | [] => (true, [])
  | tf :: tfs =>
    if !tf.isUser then insertCount env tfs
    else if tf.index = uintMax then insertCount env tfs
    else if !env.entryPoint tf.func then insertCount env tfs
    else if !env.exitPoint tf.func then insertCount env tfs
    else if !env.insertPre tf.func then (false, [])
    else if !env.insertPost tf.func then (false, [⟨tf.func, .pre, tf.index⟩])
    else
      let r := insertCount env tfs
      (r.1, ⟨tf.func, .pre, tf.index⟩ :: ⟨tf.func, .post, tf.index⟩ :: r.2)

/-- A probe call carries the index of a user target. -/
theorem exists_target_of_mem_insertCount {env : InsertEnv} {tfs : List TargetFunc} {s : Snippet}
    (h : s ∈ (insertCount env tfs).2) :
    ∃ t ∈ tfs, t.isUser = true ∧ t.func = s.func ∧ t.index = s.id := by
  induction tfs with
  | nil => cases h
  | cons tf tfs ih =>
    have hrest : s ∈ (insertCount env tfs).2 →
        ∃ t ∈ tf :: tfs, t.isUser = true ∧ t.func = s.func ∧ t.index = s.id := by
      intro h
      obtain ⟨t, ht, hp⟩ := ih h
      exact ⟨t, List.mem_cons_of_mem _ ht, hp⟩
    simp only [insertCount] at h
    by_cases hu : tf.isUser = true
    · have hself : ∀ p, s = ⟨tf.func, p, tf.index⟩ →
          ∃ t ∈ tf :: tfs, t.isUser = true ∧ t.func = s.func ∧ t.index = s.id := by
        rintro p rfl
        exact ⟨tf, List.mem_cons_self, hu, rfl, rfl⟩
      grind
    · grind

/-! ## Numbers of the targets -/

/-- The place of a name among the functions its object's map holds. -/
def position (skip : List CStr) (obj : BPatchObject) (n : CStr) : Nat :=
  (keptFunctions skip obj.functions).idxOf n

/-- The target made of a function of `obj`. -/
def targetOf (skip : List CStr) (obj : BPatchObject) (f : BPatchFunction) : TargetFunc :=
  ⟨⟨obj.id, f⟩, position skip obj f.name % 2 ^ 32, obj.name, true⟩

section

variable {findFunction : BPatchObject → CStr → List BPatchFunction} {skip : List CStr}

/-- The map has a number for the function. -/
def HasNumber (skip : List CStr) (obj : BPatchObject) (f : BPatchFunction) : Prop :=
  f.name ∈ keptFunctions skip obj.functions ∧ position skip obj f.name % 2 ^ 32 ≠ uintMax

/-- The function is found under some part of the pattern, and has a number. -/
def Targeted (findFunction : BPatchObject → CStr → List BPatchFunction) (skip : List CStr)
    (pattern : CStr) (obj : BPatchObject) (f : BPatchFunction) : Prop :=
  (∃ p ∈ subPatterns pattern, f ∈ findFunction obj p) ∧ HasNumber skip obj f

/-- The map that was loaded for `obj`. -/
def IsMapOf (skip : List CStr) (obj : BPatchObject) (fmap : FuncMap) : Prop :=
  fmap.Numbered ∧ fmap.funcs = keptFunctions skip obj.functions

theorem IsMapOf.getFunctionID_eq {obj : BPatchObject} {fmap : FuncMap} (h : IsMapOf skip obj fmap)
    (n : CStr) : getFunctionID fmap n =
      if n ∈ keptFunctions skip obj.functions then position skip obj n % 2 ^ 32 else uintMax := by
  rw [h.1.getFunctionID_eq, h.2]
  rfl

instance (skip : List CStr) (obj : BPatchObject) : DecidablePred (HasNumber skip obj) := fun _ =>
  inferInstanceAs (Decidable (_ ∧ _))

/-- The targets of an object, in the order in which they are found. -/
def objTargets (findFunction : BPatchObject → CStr → List BPatchFunction) (skip : List CStr)
    (pattern : CStr) (obj : BPatchObject) : List TargetFunc :=
  (((subPatterns pattern).flatMap (findFunction obj)).filter (HasNumber skip obj ·)).map
    (targetOf skip obj)

/-- One round of the loop in `matchFunc`. -/
theorem IsMapOf.match_round {obj : BPatchObject} {fmap : FuncMap} (h : IsMapOf skip obj fmap)
    (c : CountUtil) (f : BPatchFunction) :
    (if getFunctionID fmap f.name = uintMax then c
      else addTargetFunc c ⟨obj.id, f⟩ (getFunctionID fmap f.name) obj.name true).targetFuncs =
      c.targetFuncs ++ if HasNumber skip obj f then [targetOf skip obj f] else [] := by
  rw [h.getFunctionID_eq]
  by_cases hk : f.name ∈ keptFunctions skip obj.functions
  · rw [if_pos hk]
    by_cases hu : position skip obj f.name % 2 ^ 32 = uintMax
    · rw [if_pos hu, if_neg fun hn => hn.2 hu, List.append_nil]
    · rw [if_neg hu, if_pos ⟨hk, hu⟩]
      rfl
  · rw [if_neg hk, if_pos rfl, if_neg fun hn => hk hn.1, List.append_nil]

theorem matchFunc_targets {obj : BPatchObject} {fmap : FuncMap} (h : IsMapOf skip obj fmap)
    (pattern : CStr) (c : CountUtil) :
    (matchFunc findFunction obj fmap pattern c).targetFuncs = c.targetFuncs ++
      ((findFunction obj pattern).filter (HasNumber skip obj ·)).map (targetOf skip obj) := by
  unfold matchFunc
  induction findFunction obj pattern generalizing c with
  | nil => simp
  | cons f fs ih =>
    rw [List.foldl_cons, ih, h.match_round, List.append_assoc, List.filter_cons]
    by_cases hn : HasNumber skip obj f
    · simp [hn]
    · simp [hn]

theorem matchFuncs_targets {obj : BPatchObject} {fmap : FuncMap} (h : IsMapOf skip obj fmap)
    (pattern : CStr) (c : CountUtil) :
    (matchFuncs findFunction obj fmap pattern c).targetFuncs =
      c.targetFuncs ++ objTargets findFunction skip pattern obj := by
  unfold matchFuncs objTargets
  induction subPatterns pattern generalizing c with
  | nil => simp
  | cons p ps ih =>
    rw [List.foldl_cons, ih, matchFunc_targets h, List.flatMap_cons, List.filter_append,
      List.map_append, List.append_assoc]

theorem mem_objTargets {pattern : CStr} {obj : BPatchObject} {t : TargetFunc} :
    t ∈ objTargets findFunction skip pattern obj ↔
      ∃ f, Targeted findFunction skip pattern obj f ∧ t = targetOf skip obj f := by
  unfold objTargets Targeted
  simp only [List.mem_map, List.mem_filter, List.mem_flatMap, decide_eq_true_eq]
  exact exists_congr fun f => and_congr_right fun _ => eq_comm

theorem matchFunc_pattern (obj : BPatchObject) (fmap : FuncMap) (pattern : CStr) (c : CountUtil) :
    (matchFunc findFunction obj fmap pattern c).pattern = c.pattern := by
  unfold matchFunc
  induction findFunction obj pattern generalizing c with
  | nil => rfl
  | cons f fs ih =>
    rw [List.foldl_cons, ih]
    dsimp only
    split <;> rfl

theorem matchFuncs_pattern (obj : BPatchObject) (fmap : FuncMap) (pattern : CStr) (c : CountUtil) :
    (matchFuncs findFunction obj fmap pattern c).pattern = c.pattern := by
  unfold matchFuncs
  induction subPatterns pattern generalizing c with
  | nil => rfl
  | cons p ps ih => rw [List.foldl_cons, ih, matchFunc_pattern]

variable {env : BPatchObject → LoadEnv} {isWrap : Bool}

/-- The objects up to the first one whose map cannot be loaded. -/
def loadedObjs (skip : List CStr) (env : BPatchObject → LoadEnv) (isWrap : Bool) :
    List BPatchObject → Fs → List BPatchObject
  | [], _ => []
  | obj :: objs, fs =>
    let r := FuncMap.load (fun _ => obj.functions) skip (env obj)
      (FuncMap.ofPath obj.pathName isWrap) true fs
    if r.1 then obj :: loadedObjs skip env isWrap objs r.2.2 else []

theorem loadedObjs_le (objs : List BPatchObject) (fs : Fs) :
    loadedObjs skip env isWrap objs fs <+: objs := by
  induction objs generalizing fs with
  | nil => exact List.prefix_rfl
  | cons o objs ih =>
    simp only [loadedObjs]
    split
    · exact (List.prefix_cons_inj o).2 (ih _)
    · exact List.nil_prefix

theorem loadTargets_targets (objs : List BPatchObject) (c : CountUtil) (fs : Fs) :
    (loadTargets findFunction skip env isWrap objs c fs).2.1.targetFuncs = c.targetFuncs ++
        (loadedObjs skip env isWrap objs fs).flatMap (objTargets findFunction skip c.pattern) ∧
      ((loadTargets findFunction skip env isWrap objs c fs).1 = true →
        loadedObjs skip env isWrap objs fs = objs) := by
  induction objs generalizing c fs with
  | nil => exact ⟨by simp [loadTargets, loadedObjs], fun _ => rfl⟩
  | cons o objs ih =>
    simp only [loadTargets, loadedObjs, FuncMap.load_force]
    by_cases h1 : (loadFromELF (fun _ => o.functions) skip (env o)
        (FuncMap.ofPath o.pathName isWrap) fs).1 = true
    · rw [if_pos h1, if_pos h1]
      obtain ⟨elf, -, hmap⟩ := loadFromELF_ok h1
      obtain ⟨htargets, hall⟩ := ih (matchFuncs findFunction o _ c.pattern c) _
      refine ⟨?_, fun hr => by rw [hall hr]⟩
      rw [htargets, matchFuncs_pattern, matchFuncs_targets hmap, List.flatMap_cons,
        List.append_assoc]
    · rw [if_neg h1, if_neg h1]
      exact ⟨by simp, fun hr => (by cases hr)⟩

theorem getTargetFuncs_targets (objs : List BPatchObject) (pattern : CStr) (fs : Fs) :
    (getTargetFuncs findFunction skip env isWrap objs (.new pattern) fs).2.1.targetFuncs =
        (loadedObjs skip env isWrap (getUserObjs objs) fs).flatMap
          (objTargets findFunction skip pattern) ∧
      ((getTargetFuncs findFunction skip env isWrap objs (.new pattern) fs).1 = true →
        loadedObjs skip env isWrap (getUserObjs objs) fs = getUserObjs objs) := by
  obtain ⟨htargets, hall⟩ :=
    @loadTargets_targets findFunction skip env isWrap (getUserObjs objs) (.new pattern) fs
  rw [show (CountUtil.new pattern).targetFuncs = [] from rfl, List.nil_append] at htargets
  unfold getTargetFuncs
  dsimp only
  split
  · exact ⟨htargets, hall⟩
  · split
    · exact ⟨htargets, fun hr => (by cases hr)⟩
    · exact ⟨htargets, hall⟩

theorem mem_getTargetFuncs {objs : List BPatchObject} {pattern : CStr} {fs : Fs}
    (hr : (getTargetFuncs findFunction skip env isWrap objs (.new pattern) fs).1 = true)
    {t : TargetFunc} :
    t ∈ (getTargetFuncs findFunction skip env isWrap objs (.new pattern) fs).2.1.targetFuncs ↔
      ∃ o ∈ getUserObjs objs, ∃ f, Targeted findFunction skip pattern o f ∧
        t = targetOf skip o f := by
  obtain ⟨htargets, hall⟩ :=
    @getTargetFuncs_targets findFunction skip env isWrap objs pattern fs
  rw [htargets, hall hr]
  simp only [List.mem_flatMap, mem_objTargets]

/-! ## When the numbers tell the functions apart -/

/-- Different user targets have different numbers. -/
def IdsDistinct (targets : List TargetFunc) : Prop :=
  ∀ t ∈ targets, ∀ t' ∈ targets, t.isUser = true → t'.isUser = true → t.func ≠ t'.func →
    t.index ≠ t'.index

/-- No two targeted functions of different user objects are at the same place of their objects'
lists, and no two of one object are a multiple of 2^32 places apart. -/
def NoClash (findFunction : BPatchObject → CStr → List BPatchFunction) (skip : List CStr)
    (pattern : CStr) (objs : List BPatchObject) : Prop :=
  (∀ o ∈ getUserObjs objs, ∀ o' ∈ getUserObjs objs, o.id ≠ o'.id →
    ∀ f f', Targeted findFunction skip pattern o f → Targeted findFunction skip pattern o' f' →
      position skip o f.name % 2 ^ 32 ≠ position skip o' f'.name % 2 ^ 32) ∧
  ∀ o ∈ getUserObjs objs, ∀ f f', Targeted findFunction skip pattern o f →
    Targeted findFunction skip pattern o f' → position skip o f.name < position skip o f'.name →
      position skip o f.name % 2 ^ 32 ≠ position skip o f'.name % 2 ^ 32

/-- Objects are told apart by their pointers, and functions of one user object by their names. -/
structure Mutatee (objs : List BPatchObject) : Prop where
  ids : (objs.map (·.id)).Nodup
  names : ∀ o ∈ getUserObjs objs, (o.functions.map (·.name)).Nodup

theorem Mutatee.eq_of_id {objs : List BPatchObject} (h : Mutatee objs) {o o' : BPatchObject}
    (ho : o ∈ getUserObjs objs) (ho' : o' ∈ getUserObjs objs) (e : o.id = o'.id) : o = o' :=
  List.inj_on_of_nodup_map h.ids (List.mem_filter.1 ho).1 (List.mem_filter.1 ho').1 e

/-- `findFunction` gives functions of the object. -/
def FindsOwn (findFunction : BPatchObject → CStr → List BPatchFunction) : Prop :=
  ∀ o p, ∀ f ∈ findFunction o p, f ∈ o.functions

/-- Two targeted functions of one object at the same place are the same. -/
theorem Mutatee.eq_of_position {objs : List BPatchObject} (h : Mutatee objs)
    (hfind : FindsOwn findFunction) {o : BPatchObject} (ho : o ∈ getUserObjs objs) {pattern : CStr}
    {f f' : BPatchFunction} (hf : Targeted findFunction skip pattern o f)
    (hf' : Targeted findFunction skip pattern o f')
    (e : position skip o f.name = position skip o f'.name) : f = f' := by
  obtain ⟨⟨p, -, hp⟩, hk, -⟩ := hf
  obtain ⟨⟨p', -, hp'⟩, -, -⟩ := hf'
  exact List.inj_on_of_nodup_map (h.names o ho) (hfind o p f hp) (hfind o p' f' hp')
    ((List.idxOf_inj hk).1 e)

theorem idsDistinct_iff_noClash {objs : List BPatchObject} (hm : Mutatee objs)
    (hfind : FindsOwn findFunction) {pattern : CStr} {fs : Fs}
    (hr : (getTargetFuncs findFunction skip env isWrap objs (.new pattern) fs).1 = true) :
    IdsDistinct
        (getTargetFuncs findFunction skip env isWrap objs (.new pattern) fs).2.1.targetFuncs ↔
      NoClash findFunction skip pattern objs := by
  constructor
  · intro h
    constructor
    · intro o ho o' ho' hne f f' hf hf'
      have ht := (mem_getTargetFuncs hr).2 ⟨o, ho, f, hf, rfl⟩
      have ht' := (mem_getTargetFuncs hr).2 ⟨o', ho', f', hf', rfl⟩
      exact h _ ht _ ht' rfl rfl fun e => hne (congrArg FuncRef.obj e)
    · intro o ho f f' hf hf' hlt
      have ht := (mem_getTargetFuncs hr).2 ⟨o, ho, f, hf, rfl⟩
      have ht' := (mem_getTargetFuncs hr).2 ⟨o, ho, f', hf', rfl⟩
      refine h _ ht _ ht' rfl rfl fun e => hlt.ne ?_
      rw [show f = f' from congrArg FuncRef.func e]
  · rintro ⟨hcross, hwide⟩ t ht t' ht' - - hne
    obtain ⟨o, ho, f, hf, rfl⟩ := (mem_getTargetFuncs hr).1 ht
    obtain ⟨o', ho', f', hf', rfl⟩ := (mem_getTargetFuncs hr).1 ht'
    by_cases hid : o.id = o'.id
    · obtain rfl := hm.eq_of_id ho ho' hid
      have hpos : position skip o f.name ≠ position skip o f'.name := fun e => hne (by
        rw [hm.eq_of_position hfind ho hf hf' e])
      rcases Nat.lt_or_gt_of_ne hpos with hlt | hlt
      · exact hwide o ho f f' hf hf' hlt
      · exact (hwide o ho f' f hf' hf hlt).symm
    · exact hcross o ho o' ho' hid f f' hf hf'

theorem IdsDistinct.snippets {targets : List TargetFunc} (h : IdsDistinct targets)
    {ienv : InsertEnv} {s s' : Snippet} (hs : s ∈ (insertCount ienv targets).2)
    (hs' : s' ∈ (insertCount ienv targets).2) (e : s.id = s'.id) : s.func = s'.func := by
  obtain ⟨t, ht, hu, hf, hi⟩ := exists_target_of_mem_insertCount hs
  obtain ⟨t', ht', hu', hf', hi'⟩ := exists_target_of_mem_insertCount hs'
  by_contra hne
  refine h t ht t' ht' hu hu' ?_ (by rw [hi, hi', e])
  rwa [hf, hf']

/-- **The numbers tell the targets apart exactly when no two objects have targets at the same
place**; the number in a probe call then tells which function was entered. -/
theorem ids_distinct_iff {objs : List BPatchObject} (hm : Mutatee objs)
    (hfind : FindsOwn findFunction) {pattern : CStr} {fs : Fs}
    (hr : (getTargetFuncs findFunction skip env isWrap objs (.new pattern) fs).1 = true) :
    let targets := (getTargetFuncs findFunction skip env isWrap objs (.new pattern)
      fs).2.1.targetFuncs
    (IdsDistinct targets ↔ NoClash findFunction skip pattern objs) ∧
      (NoClash findFunction skip pattern objs → ∀ ienv, ∀ s ∈ (insertCount ienv targets).2,
        ∀ s' ∈ (insertCount ienv targets).2, s.id = s'.id → s.func = s'.func) := by
  have hiff := idsDistinct_iff_noClash hm hfind hr
  exact ⟨hiff, fun hc _ _ hs _ hs' e => (hiff.2 hc).snippets hs hs' e⟩

end

/-! ## A program and its library -/

def mainObj : BPatchObject :=
  ⟨0, "prog".toList, "/a/prog".toList, false,
    [⟨"main".toList, 0, true, 0⟩, ⟨"foo".toList, 0, true, 1⟩]⟩

def libObj : BPatchObject :=
  ⟨1, "libbar.so".toList, "/a/libbar.so".toList, false, [⟨"bar".toList, 0, true, 0⟩]⟩

/-- The files of both. -/
def mutateeFs : Fs :=
  (Fs.empty.write "/a/prog".toList ['1'] .elf).write "/a/libbar.so".toList ['2'] .elf

theorem mutatee_two : Mutatee [mainObj, libObj] := by
  refine ⟨by decide, fun o ho => ?_⟩
  rcases List.mem_cons.1 (List.mem_filter.1 ho).1 with rfl | ho
  · decide
  · rw [List.mem_singleton.1 ho]
    decide

/-- The targets `foo` and `bar`. -/
def fooBar : Bool × CountUtil × Fs :=
  getTargetFuncs (fun o name => o.functions.filter (·.name == name)) [] (fun _ => .granting) false
    [mainObj, libObj] (.new "foo,bar".toList) mutateeFs

/-- `foo` is number 1 in its object and `bar` is number 0. -/
theorem ids_distinct_iff_main :
    fooBar.2.1.targetFuncs.map (·.index) = [1, 0] ∧ IdsDistinct fooBar.2.1.targetFuncs ∧
      NoClash (fun o name => o.functions.filter (·.name == name)) [] "foo,bar".toList
        [mainObj, libObj] := by
  have hids : IdsDistinct fooBar.2.1.targetFuncs := by
    unfold IdsDistinct
    decide +kernel
  have hr : fooBar.1 = true := by decide +kernel
  exact ⟨by decide +kernel, hids,
    (ids_distinct_iff mutatee_two (fun _ _ _ hf => (List.mem_filter.1 hf).1) hr).1.1 hids⟩

/-- `main` and `bar` are both number 0. -/
theorem library_clashes :
    Mutatee [mainObj, libObj] ∧
      (getTargetFuncs (fun o _ => o.functions) [] (fun _ => .granting) false [mainObj, libObj]
        (.new patternAll) mutateeFs).1 = true ∧
      ¬ IdsDistinct (getTargetFuncs (fun o _ => o.functions) [] (fun _ => .granting) false
        [mainObj, libObj] (.new patternAll) mutateeFs).2.1.targetFuncs := by
  refine ⟨mutatee_two, by decide +kernel, ?_⟩
  unfold IdsDistinct
  decide +kernel

end Lprofile.Utils
