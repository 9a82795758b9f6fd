import Lprofile.Probe.Threads
import Lprofile.Utils.Count

/-!
# How often a function is instrumented

`matchFuncs` passes each part of the pattern to Dyninst and appends what it finds
to `target_funcs`, without looking whether it is there already, and `insertCount`
puts a pair of probe calls into the function of each entry. A function that two
parts of the pattern match is entered with two entry probes.

So each function is instrumented once exactly when no function with a number is
found twice in its object (`instrumented_once_iff`).
-/

namespace Lprofile.Utils

open Lprofile.Lib Lprofile.Probe

/-! ## Executions -/

def ProbeFunc.isPost : ProbeFunc → Bool
  | .pre => false
  | .post => true

/-- The arguments of the calls of `callee` that were put into `func`. -/
def snippetIds (snippets : List Snippet) (func : FuncRef) (callee : ProbeFunc) : List Nat :=
  (snippets.filter fun s => s.func = func ∧ s.callee = callee).map (·.id)

/-- The probe calls with these arguments, one after the other: call `k` reads `cyc k` and
`samples k`. -/
def runProbes (isPost : Bool) (cyc : Nat → BitVec 64) (samples : Nat → Nat → PmcSample)
    (tid : Int) : List Nat → Nat → Tls → Proc → Except Fault (Tls × Proc)
  | [], _, tls, g => .ok (tls, g)
  | id :: ids, k, tls, g =>
    match lprobeFunc ⟨BitVec.ofNat 32 id, isPost, cyc k⟩ (samples k) tid tls g with
    | .error f => .error f
    | .ok r => runProbes isPost cyc samples tid ids (k + 1) r.1 r.2

/-- An execution of `func` comes to its entry (`.pre`) or to its exit (`.post`). -/
def execute (snippets : List Snippet) (func : FuncRef) (callee : ProbeFunc) (cyc : Nat → BitVec 64)
    (samples : Nat → Nat → PmcSample) (tid : Int) (tls : Tls) (g : Proc) :
    Except Fault (Tls × Proc) :=
  runProbes callee.isPost cyc samples tid (snippetIds snippets func callee) 0 tls g

/-- The function of the target can be instrumented. -/
def Insertable (ienv : InsertEnv) (t : TargetFunc) : Prop :=
  t.isUser = true ∧ t.index ≠ uintMax ∧ ienv.entryPoint t.func = true ∧
    ienv.exitPoint t.func = true

instance (ienv : InsertEnv) : DecidablePred (Insertable ienv) := fun _ =>
  inferInstanceAs (Decidable (_ ∧ _ ∧ _ ∧ _))

/-- Each function is a user target once, has one entry and one exit probe, and each of its
executions leaves one record for each event at its entry, and one at its exit. -/
structure InstrumentedOnce (targets : List TargetFunc) : Prop where
  distinct : ((targets.filter (·.isUser)).map (·.func)).Nodup
  atMost : ∀ ienv func callee,
    (snippetIds (insertCount ienv targets).2 func callee).length ≤ 1
  inserted : ∀ ienv, (insertCount ienv targets).1 = true → ∀ t ∈ targets, Insertable ienv t →
    ∀ callee, snippetIds (insertCount ienv targets).2 t.func callee = [t.index]
  records : ∀ ienv, (insertCount ienv targets).1 = true → ∀ t ∈ targets, Insertable ienv t →
    ∀ callee g tid tls tls' i l, TableOk g → enterProbe tid tls g.info = (tls', some i) →
      (g.slot i).evlist = some l → ∀ cyc samples, ∃ g',
        execute (insertCount ienv targets).2 t.func callee cyc samples tid tls g = .ok (tls', g') ∧
          Extends g i (callRecords ⟨BitVec.ofNat 32 t.index, callee.isPost, cyc 0⟩ (samples 0)
            l.entries) g'

/-- No function of `obj` that has a number is found twice: by one part of the pattern, or by two. -/
structure FoundOnce (findFunction : BPatchObject → CStr → List BPatchFunction) (skip : List CStr)
    (pattern : CStr) (obj : BPatchObject) : Prop where
  each : ∀ p ∈ subPatterns pattern, ((findFunction obj p).filter (HasNumber skip obj ·)).Nodup
  apart : (subPatterns pattern).Pairwise fun p q =>
    ∀ f ∈ findFunction obj p, HasNumber skip obj f → f ∉ findFunction obj q

/-! ## Insertion -/

/-- The two probe calls of a target. -/
def probePair (t : TargetFunc) : List Snippet := [⟨t.func, .pre, t.index⟩, ⟨t.func, .post, t.index⟩]

theorem insertCount_snippets (ienv : InsertEnv) (targets : List TargetFunc) :
    (insertCount ienv targets).2 <+: (targets.filter (Insertable ienv ·)).flatMap probePair ∧
      ((insertCount ienv targets).1 = true →
        (insertCount ienv targets).2 = (targets.filter (Insertable ienv ·)).flatMap probePair) := by
  induction targets with
  | nil => exact ⟨List.prefix_rfl, fun _ => rfl⟩
  | cons t targets ih =>
    by_cases ht : Insertable ienv t
    · rw [List.filter_cons, if_pos (decide_eq_true ht), List.flatMap_cons]
      obtain ⟨hu, hi, hen, hex⟩ := ht
      simp only [insertCount, hu, hi, hen, hex, Bool.not_true, Bool.false_eq_true, ↓reduceIte]
      split
      · exact ⟨List.nil_prefix, fun h => (by cases h)⟩
      · split
        · exact ⟨⟨_, rfl⟩, fun h => (by cases h)⟩
        · refine ⟨?_, fun h => by rw [ih.2 h]; rfl⟩
          exact (List.prefix_append_right_inj (probePair t)).2 ih.1
    · rw [List.filter_cons_of_neg (by simpa using ht)]
      have hskip : insertCount ienv (t :: targets) = insertCount ienv targets := by
        simp only [insertCount]
        split
        · rfl
        · split
          · rfl
          · split
            · rfl
            · split
              · rfl
              · rename_i h1 h2 h3 h4
                simp only [Bool.not_eq_true', Bool.not_eq_false] at h1 h3 h4
                exact absurd ⟨h1, h2, h3, h4⟩ ht
      rw [hskip]
      exact ih

/-- The probes in a function are those of its targets. -/
theorem snippetIds_flatMap (targets : List TargetFunc) (func : FuncRef) (callee : ProbeFunc) :
    snippetIds (targets.flatMap probePair) func callee =
      (targets.filter (·.func = func)).map (·.index) := by
  induction targets with
  | nil => rfl
  | cons t targets ih =>
    have hpair : ((probePair t).filter fun s => s.func = func ∧ s.callee = callee).map (·.id) =
        if t.func = func then [t.index] else [] := by
      by_cases hf : t.func = func
      · cases callee <;> simp [probePair, hf]
      · cases callee <;> simp [probePair, hf]
    rw [snippetIds, List.flatMap_cons, List.filter_append, List.map_append, hpair, List.filter_cons]
    rw [snippetIds] at ih
    rw [ih]
    by_cases hf : t.func = func
    · simp [hf]
    · simp [hf]

theorem length_filter_func_le {targets : List TargetFunc} (h : (targets.map (·.func)).Nodup)
    (func : FuncRef) : (targets.filter (·.func = func)).length ≤ 1 := by
  have hcount := List.nodup_iff_count_le_one.1 h func
  rw [List.count, List.countP_map, List.countP_eq_length_filter] at hcount
  exact hcount

/-- One target for each function, one pair of probes in each. -/
theorem instrumentedOnce_iff {targets : List TargetFunc} :
    InstrumentedOnce targets ↔ ((targets.filter (·.isUser)).map (·.func)).Nodup := by
  refine ⟨fun h => h.distinct, fun h => ?_⟩
  have hsub : ∀ ienv, (targets.filter (Insertable ienv ·)).Sublist (targets.filter (·.isUser)) := by
    intro ienv
    refine List.monotone_filter_right targets fun t ht => ?_
    exact (of_decide_eq_true ht).1
  have hone : ∀ ienv func,
      ((targets.filter (Insertable ienv ·)).filter (·.func = func)).length ≤ 1 :=
    fun ienv func => length_filter_func_le (((hsub ienv).map _).nodup h) func
  have hinserted : ∀ ienv, (insertCount ienv targets).1 = true → ∀ t ∈ targets,
      Insertable ienv t → ∀ callee,
        snippetIds (insertCount ienv targets).2 t.func callee = [t.index] := by
    intro ienv hr t ht hins callee
    have hmem : t ∈ (targets.filter (Insertable ienv ·)).filter (·.func = t.func) := by
      simp [ht, hins]
    have hlen := hone ienv t.func
    rw [(insertCount_snippets ienv targets).2 hr, snippetIds_flatMap]
    obtain ⟨t', ht'⟩ := List.length_eq_one_iff.1
      (Nat.le_antisymm hlen (List.length_pos_of_mem hmem))
    rw [ht', List.mem_singleton] at hmem
    rw [ht', hmem]
    rfl
  refine ⟨h, fun ienv func callee => ?_, hinserted, ?_⟩
  · have hpre := (insertCount_snippets ienv targets).1
    have hle := ((hpre.filter fun s => s.func = func ∧ s.callee = callee).map (·.id)).length_le
    refine hle.trans ?_
    have hids := snippetIds_flatMap (targets.filter (Insertable ienv ·)) func callee
    rw [snippetIds] at hids
    rw [hids, List.length_map]
    exact hone ienv func
  · intro ienv hr t ht hins callee g tid tls tls' i l hg henter hl cyc samples
    obtain ⟨g', hrun, hcase⟩ := lprobeFunc_spec hg
      ⟨BitVec.ofNat 32 t.index, callee.isPost, cyc 0⟩ (samples 0) tid tls
    rw [henter] at hrun hcase
    obtain ⟨l', hl', hext⟩ := hcase
    rw [hl] at hl'
    cases hl'
    refine ⟨g', ?_, hext⟩
    rw [execute, hinserted ienv hr t ht hins callee]
    simp only [runProbes, hrun]

/-! ## Matching -/

section

variable {findFunction : BPatchObject → CStr → List BPatchFunction} {skip : List CStr}
  {pattern : CStr}

theorem nodup_objTargets_iff (obj : BPatchObject) :
    ((objTargets findFunction skip pattern obj).map (·.func)).Nodup ↔
      FoundOnce findFunction skip pattern obj := by
  have hinj : Function.Injective fun f : BPatchFunction => (⟨obj.id, f⟩ : FuncRef) :=
    fun f f' e => congrArg FuncRef.func e
  rw [objTargets, List.map_map]
  change (List.map (fun f : BPatchFunction => (⟨obj.id, f⟩ : FuncRef)) _).Nodup ↔ _
  rw [List.nodup_map_iff hinj, List.filter_flatMap, List.nodup_flatMap]
  have hdisj : ∀ p q, List.Disjoint ((findFunction obj p).filter (HasNumber skip obj ·))
      ((findFunction obj q).filter (HasNumber skip obj ·)) ↔
        ∀ f ∈ findFunction obj p, HasNumber skip obj f → f ∉ findFunction obj q := by
    intro p q
    simp only [List.disjoint_left, List.mem_filter, decide_eq_true_eq, not_and, and_imp]
    exact ⟨fun h f hf hn hq => h hf hn hq hn, fun h f hf hn hq => absurd hq (h f hf hn)⟩
  constructor
  · rintro ⟨heach, hapart⟩
    exact ⟨heach, hapart.imp fun {p q} h => (hdisj p q).1 h⟩
  · rintro ⟨heach, hapart⟩
    exact ⟨heach, hapart.imp fun {p q} h => (hdisj p q).2 h⟩

theorem func_obj_of_mem_objTargets {obj : BPatchObject} {r : FuncRef}
    (h : r ∈ (objTargets findFunction skip pattern obj).map (·.func)) : r.obj = obj.id := by
  obtain ⟨t, ht, rfl⟩ := List.mem_map.1 h
  obtain ⟨f, -, rfl⟩ := mem_objTargets.1 ht
  rfl

/-- Functions of different objects are different. -/
theorem nodup_targets_iff {objs : List BPatchObject} (hids : (objs.map (·.id)).Nodup) :
    ((objs.flatMap (objTargets findFunction skip pattern)).map (·.func)).Nodup ↔
      ∀ o ∈ objs, FoundOnce findFunction skip pattern o := by
  rw [List.map_flatMap, List.nodup_flatMap, and_iff_left]
  · exact forall₂_congr fun o _ => nodup_objTargets_iff o
  · refine (List.pairwise_map.1 hids).imp fun {o o'} hne => ?_
    refine List.disjoint_left.2 fun r hr hr' => ?_
    exact hne ((func_obj_of_mem_objTargets hr).symm.trans (func_obj_of_mem_objTargets hr'))

theorem filter_isUser_targets (objs : List BPatchObject) :
    (objs.flatMap (objTargets findFunction skip pattern)).filter (·.isUser) =
      objs.flatMap (objTargets findFunction skip pattern) := by
  refine List.filter_eq_self.2 fun t ht => ?_
  obtain ⟨o, -, ht⟩ := List.mem_flatMap.1 ht
  obtain ⟨f, -, rfl⟩ := mem_objTargets.1 ht
  rfl

/-- **Each function is instrumented once exactly when none is found twice**, among the user objects
up to the first one whose map cannot be loaded. -/
theorem instrumented_once_iff (env : BPatchObject → LoadEnv) (isWrap : Bool)
    (objs : List BPatchObject) (hids : (objs.map (·.id)).Nodup) (fs : Fs) :
    InstrumentedOnce (getTargetFuncs findFunction skip env isWrap objs (.new pattern)
        fs).2.1.targetFuncs ↔
      ∀ o ∈ loadedObjs skip env isWrap (getUserObjs objs) fs,
        FoundOnce findFunction skip pattern o := by
  have hloaded : (loadedObjs skip env isWrap (getUserObjs objs) fs).Sublist objs :=
    (loadedObjs_le _ _).sublist.trans List.filter_sublist
  rw [instrumentedOnce_iff, (getTargetFuncs_targets objs pattern fs).1, filter_isUser_targets,
    nodup_targets_iff ((hloaded.map _).nodup hids)]

end

/-- `findFunction` for the pattern of all functions and for plain names. -/
def findByName (obj : BPatchObject) (pattern : CStr) : List BPatchFunction :=
  if pattern = patternAll then obj.functions else obj.functions.filter (·.name = pattern)

/-- The targets in `mainObj`, when everything works. -/
def mainTargets (pattern : CStr) : List TargetFunc :=
  (getTargetFuncs findByName [] (fun _ => .granting) false [mainObj] (.new pattern)
    mutateeFs).2.1.targetFuncs

theorem instrumented_once_iff_main :
    InstrumentedOnce (mainTargets "main,foo".toList) ∧
      FoundOnce findByName [] "main,foo".toList mainObj := by
  have hloaded : loadedObjs [] (fun _ => .granting) false (getUserObjs [mainObj]) mutateeFs =
      [mainObj] := rfl
  have hfound : FoundOnce findByName [] "main,foo".toList mainObj :=
    ⟨by decide +kernel, by decide +kernel⟩
  refine ⟨(instrumented_once_iff (fun _ => .granting) false [mainObj] (by decide) mutateeFs).2 ?_,
    hfound⟩
  intro o ho
  rw [hloaded, List.mem_singleton] at ho
  rw [ho]
  exact hfound

/-- Every point is found, and every insertion works. -/
def InsertEnv.granting : InsertEnv :=
  ⟨fun _ => true, fun _ => true, fun _ => true, fun _ => true⟩

/-- `main` is matched by both parts of the pattern: it is a target twice, and has two entry
probes. -/
theorem overlap_doubles :
    (getTargetFuncs findByName [] (fun _ => .granting) false [mainObj] (.new "main,(.*)".toList)
      mutateeFs).1 = true ∧
      (mainTargets "main,(.*)".toList).map (·.func.func.name) =
        ["main".toList, "main".toList, "foo".toList] ∧
      snippetIds (insertCount .granting (mainTargets "main,(.*)".toList)).2
        ⟨0, ⟨"main".toList, 0, true, 0⟩⟩ .pre = [0, 0] ∧
      ¬ InstrumentedOnce (mainTargets "main,(.*)".toList) := by
  refine ⟨by decide +kernel, by decide +kernel, by decide +kernel, fun h => ?_⟩
  exact absurd h.distinct (by decide +kernel)

end Lprofile.Utils
