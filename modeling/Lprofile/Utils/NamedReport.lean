import Lprofile.Probe.Delivery
import Lprofile.Utils.Cache
import Lprofile.Utils.Instrumented
import Lprofile.Utils.ReportText

/-!
# The functions behind the report

From the mutatee to the names: `getTargetFuncs` numbers the functions and leaves the
names in the cache file, `insertCount` puts the numbers into the probe calls, the
probes of a thread go to its data file, and `lprofile report` prints the file. A line
of the report has a number, and the cache file has the name of this number.

With one user object, at most 2^16 functions and names that fit the cache, the
report of a thread read with the cache file is what the thread visited, in order,
once for each event, whatever the other threads do meanwhile (`report_names`).
-/

namespace Lprofile.Utils

open Lprofile.Lib Lprofile.Probe

/-! ## Visits -/

/-- A thread comes to the entry or to the exit of a function; the probe calls there read `cyc` and
`samples`, as in `execute`. -/
structure Visit where
  func : BPatchFunction
  callee : ProbeFunc
  cyc : Nat → BitVec 64
  samples : Nat → Nat → PmcSample

/-- The probe calls of a visit. -/
def Visit.calls (snippets : List Snippet) (obj : BPatchObject) (v : Visit) :
    List (ProbeCall × (Nat → PmcSample)) :=
  (snippetIds snippets ⟨obj.id, v.func⟩ v.callee).mapIdx fun k id =>
    (⟨BitVec.ofNat 32 id, v.callee.isPost, v.cyc k⟩, v.samples k)

/-- A line of the report, with the name from the map. -/
def nameRecord (m : FuncMap) (r : ProfRecord) : Option CStr × Bool :=
  (m.funcs[r.funcIdx.toNat]?, r.pos == 1)

/-- The report read with a map. -/
def readNames (m : FuncMap) (text : CStr) : Option (List (Option CStr × Bool)) :=
  (readReport text).map fun rs => rs.map (nameRecord m)

section

variable (findFunction : BPatchObject → CStr → List BPatchFunction) (b : Bool)
  (env : BPatchObject → LoadEnv) (objs : List BPatchObject) (pattern : CStr) (fs : Fs)
  (ienv : InsertEnv)

/-- The targets of the mutatee. -/
abbrev targetsOf : List TargetFunc :=
  (getTargetFuncs findFunction (skiplist b) env false objs (.new pattern) fs).2.1.targetFuncs

/-- `obj` is the only user object, and it is instrumented. -/
structure Profiled (obj : BPatchObject) : Prop where
  only : getUserObjs objs = [obj]
  found : (getTargetFuncs findFunction (skiplist b) env false objs (.new pattern) fs).1 = true
  inserted : (insertCount ienv (targetsOf findFunction b env objs pattern fs)).1 = true
  once : FoundOnce findFunction (skiplist b) pattern obj
  few : (keptFunctions (skiplist b) obj.functions).length ≤ 2 ^ 16
  plain : ∀ n ∈ keptFunctions (skiplist b) obj.functions, '\n' ∉ n ∧ '\x00' ∉ n
  fits : FitsBuffer (keptFunctions (skiplist b) obj.functions)

variable {findFunction b env objs pattern fs ienv} {obj : BPatchObject}

theorem Profiled.targets (h : Profiled findFunction b env objs pattern fs ienv obj) :
    targetsOf findFunction b env objs pattern fs =
      objTargets findFunction (skiplist b) pattern obj := by
  obtain ⟨htargets, hall⟩ :=
    @getTargetFuncs_targets findFunction (skiplist b) env false objs pattern fs
  rw [targetsOf, htargets, hall h.found, h.only, List.flatMap_singleton]

/-- Each function that can be instrumented has one probe at its entry, and one at its exit. -/
theorem Profiled.snippetIds_eq (h : Profiled findFunction b env objs pattern fs ienv obj)
    {t : TargetFunc} (ht : t ∈ targetsOf findFunction b env objs pattern fs)
    (hins : Insertable ienv t) (callee : ProbeFunc) :
    snippetIds (insertCount ienv (targetsOf findFunction b env objs pattern fs)).2 t.func callee =
      [t.index] := by
  have hnodup : ((objTargets findFunction (skiplist b) pattern obj).map (·.func)).Nodup :=
    (nodup_objTargets_iff obj).2 h.once
  have honce : InstrumentedOnce (targetsOf findFunction b env objs pattern fs) := by
    refine instrumentedOnce_iff.2 ?_
    rw [h.targets]
    exact (List.filter_sublist.map _).nodup hnodup
  exact honce.inserted ienv h.inserted t ht hins callee

/-! ## The cache -/

/-- `getTargetFuncs` is the load of the one object. -/
theorem Profiled.load (h : Profiled findFunction b env objs pattern fs ienv obj) :
    let r := loadFromELF (fun _ => obj.functions) (skiplist b) (env obj)
      (FuncMap.ofPath obj.pathName false) fs
    r.1 = true ∧
      (getTargetFuncs findFunction (skiplist b) env false objs (.new pattern) fs).2.2 = r.2.2 := by
  have hfound := h.found
  unfold getTargetFuncs at hfound ⊢
  simp only [h.only, loadTargets, FuncMap.load_force] at hfound ⊢
  by_cases hr : (loadFromELF (fun _ => obj.functions) (skiplist b) (env obj)
      (FuncMap.ofPath obj.pathName false) fs).1 = true
  · refine ⟨hr, ?_⟩
    rw [if_pos hr]
    dsimp only
    split
    · rfl
    · split <;> rfl
  · rw [if_neg hr] at hfound
    cases hfound

theorem Profiled.cacheNames (h : Profiled findFunction b env objs pattern fs ienv obj) :
    CacheNames b (keptFunctions (skiplist b) obj.functions) where
  nodup := nodup_keptFunctions _ _
  plain := h.plain
  kept _ hn := (exists_of_mem_keptFunctions hn).2

/-- The map read from the cache file has the numbers that are in the probe calls. -/
theorem Profiled.cached (h : Profiled findFunction b env objs pattern fs ienv obj)
    {env' : LoadEnv} (hopen : env'.openCache = true) (wrap : Bool) :
    (loadFromCache (skiplist b) env' (FuncMap.ofPath obj.pathName wrap)
      (getTargetFuncs findFunction (skiplist b) env false objs (.new pattern) fs).2.2).2.funcs =
        keptFunctions (skiplist b) obj.functions := by
  obtain ⟨hr, hfs⟩ := h.load
  obtain ⟨file, hfile, htext⟩ := loadFromELF_cached (fun _ => obj.functions) (skiplist b) (env obj)
    (FuncMap.ofPath obj.pathName false) fs hr
  obtain ⟨elf, -, -, hfuncs⟩ := loadFromELF_ok hr
  rw [cachefile, elfName_loadFromELF] at hfile
  rw [hfs, @loadFromCache_ok env' hopen _ _ _ file hfile]
  rw [(addFunctions_spec (FuncMap.numbered_ofPath obj.pathName wrap) _ _).2, htext, hfuncs]
  exact (readBack_names_iff h.cacheNames).2 h.fits

/-! ## The records -/

variable (findFunction b env objs pattern fs ienv obj) in
/-- The function of the visit is a target that can be instrumented. -/
def Visit.Probed (v : Visit) : Prop :=
  ∃ t ∈ targetsOf findFunction b env objs pattern fs, Insertable ienv t ∧
    t.func = ⟨obj.id, v.func⟩

/-- A visit is one call, with the place of the function in the map. -/
theorem Profiled.visit_calls (h : Profiled findFunction b env objs pattern fs ienv obj) {v : Visit}
    (hv : v.Probed findFunction b env objs pattern fs ienv obj) :
    ∃ i, i < 2 ^ 16 ∧ (keptFunctions (skiplist b) obj.functions)[i]? = some v.func.name ∧
      v.calls (insertCount ienv (targetsOf findFunction b env objs pattern fs)).2 obj =
        [(⟨BitVec.ofNat 32 i, v.callee.isPost, v.cyc 0⟩, v.samples 0)] := by
  obtain ⟨t, ht, hins, hfunc⟩ := hv
  have hids := h.snippetIds_eq ht hins v.callee
  rw [h.targets] at ht
  obtain ⟨f, hf, rfl⟩ := mem_objTargets.1 ht
  obtain rfl : f = v.func := congrArg FuncRef.func hfunc
  have hlt : position (skiplist b) obj v.func.name <
      (keptFunctions (skiplist b) obj.functions).length := List.idxOf_lt_length_of_mem hf.2.1
  have hfew := h.few
  have hindex : (targetOf (skiplist b) obj v.func).index =
      position (skiplist b) obj v.func.name := Nat.mod_eq_of_lt (by omega)
  refine ⟨position (skiplist b) obj v.func.name, by omega, ?_, ?_⟩
  · rw [List.getElem?_eq_getElem hlt]
    exact congrArg some (List.getElem_idxOf hlt)
  · rw [Visit.calls, ← hfunc, hids, hindex]
    rfl

/-- A record of such a call has the name. -/
theorem nameRecord_callRecords {m : FuncMap} {i : Nat} {name : CStr} (hi : i < 2 ^ 16)
    (hname : m.funcs[i]? = some name) (isPost : Bool) (cyc : BitVec 64)
    (samples : Nat → PmcSample) (es : List ProfEvsel) :
    (callRecords ⟨BitVec.ofNat 32 i, isPost, cyc⟩ samples es).map (nameRecord m) =
      List.replicate es.length (some name, isPost) := by
  have hidx : ((BitVec.ofNat 32 i).setWidth 16).toNat = i := by
    simp
    omega
  refine List.ext_getElem? fun k => ?_
  simp only [callRecords, List.getElem?_map, List.getElem?_mapIdx, Option.map_map,
    List.getElem?_replicate]
  by_cases hk : k < es.length
  · rw [List.getElem?_eq_getElem hk, if_pos hk]
    simp only [Option.map_some, Function.comp, nameRecord, ProbeCall.recordOf, ProbeCall.record,
      hidx, hname]
    cases isPost <;> rfl
  · rw [List.getElem?_eq_none (Nat.le_of_not_lt hk), if_neg hk]
    rfl

/-- The lines a thread should leave: its visits, once for each event. -/
def visitNames (n : Nat) (visits : List Visit) : List (Option CStr × Bool) :=
  visits.flatMap fun v => List.replicate n (some v.func.name, v.callee.isPost)

theorem Profiled.names (h : Profiled findFunction b env objs pattern fs ienv obj) {m : FuncMap}
    (hm : m.funcs = keptFunctions (skiplist b) obj.functions) (es : List ProfEvsel)
    {visits : List Visit}
    (hv : ∀ v ∈ visits, v.Probed findFunction b env objs pattern fs ienv obj) :
    (recordsOf es (visits.flatMap
      (Visit.calls (insertCount ienv (targetsOf findFunction b env objs pattern fs)).2 obj))).map
        (nameRecord m) = visitNames es.length visits := by
  rw [recordsOf, List.flatMap_assoc, List.map_flatMap, visitNames]
  refine List.flatMap_congr fun v hmem => ?_
  obtain ⟨i, hi, hname, hcalls⟩ := h.visit_calls (hv v hmem)
  rw [hcalls, List.flatMap_singleton]
  exact nameRecord_callRecords hi (by rw [hm, hname]) _ _ _ es

end

/-- **The report names what was visited.** After `lprobe_init`, registrations and any interleaving
of probe calls, and `lprobe_exit`: the report of a thread's file, read with the cache file, is the
visits of the thread in order. -/
theorem report_names {findFunction : BPatchObject → CStr → List BPatchFunction} {b : Bool}
    {env : BPatchObject → LoadEnv} {objs : List BPatchObject} {pattern : CStr} {fs : Fs}
    {ienv : InsertEnv} {obj : BPatchObject}
    (h : Profiled findFunction b env objs pattern fs ienv obj) {env' : LoadEnv}
    (hopen : env'.openCache = true) {pid : Int} {tls : Tls} {g : Proc} (hpid : ValidTid pid)
    (hinit : InitOk pid tls g)
    (hdist : ∀ i ∈ g.inits, ∀ j ∈ g.inits, (g.slot i).tid = (g.slot j).tid → i = j)
    {pre post : List PipeStep} (hpre : ∀ a ∈ pre, a ≠ .exit)
    (hl : pipeMachine.Legal (.start pid tls g) (pre ++ .exit :: post)) :
    ∃ s s', pipeMachine.run (.start pid tls g) pre = .ok s ∧
      pipeMachine.run (.start pid tls g) (pre ++ .exit :: post) = .ok s' ∧
      ∀ i l visits, (s.proc.slot i).state = .running → (s.proc.slot i).evlist = some l →
        (∀ v ∈ visits, v.Probed findFunction b env objs pattern fs ienv obj) →
        callsOf (s.proc.slot i).tid pre = visits.flatMap
          (Visit.calls (insertCount ienv (targetsOf findFunction b env objs pattern fs)).2 obj) →
        let file := outfile (s.proc.slot i).tid
        let cache := (loadFromCache (skiplist b) env' (FuncMap.ofPath obj.pathName false)
          (getTargetFuncs findFunction (skiplist b) env false objs (.new pattern) fs).2.2).2
        readNames cache (process false file (some (s'.proc.os.files file))).2.stdout =
          some (visitNames l.entries.length visits) := by
  obtain ⟨s, s', hs, hs', hfiles⟩ := pipeline_files hpid hinit hdist hpre hl
  refine ⟨s, s', hs, hs', fun i l visits hrun hlist hv hcalls => ?_⟩
  dsimp only
  rw [readNames, hfiles i l hrun hlist, hcalls, stdout_process, readReport_lines,
    fullRecords_recordBytes, Option.map_some, h.names (h.cached hopen false) l.entries hv]

/-! ## Two entries -/

theorem profiled_main :
    Profiled findByName true (fun _ => .granting) [mainObj] patternAll mutateeFs .granting
      mainObj where
  only := rfl
  found := by decide +kernel
  inserted := by decide +kernel
  once := ⟨by decide +kernel, by decide +kernel⟩
  few := by decide
  plain := by decide
  fits := fitsBuffer_of_short (by decide)

/-- The map in the cache file of `prog`. -/
def progCache : FuncMap :=
  (loadFromCache (skiplist true) .granting (FuncMap.ofPath mainObj.pathName false)
    (getTargetFuncs findByName (skiplist true) (fun _ => .granting) false [mainObj]
      (.new patternAll) mutateeFs).2.2).2

/-- An entry of `main` or `foo`, which are numbers 0 and 1. -/
def entered (n : CStr) (addr : Nat) (cyc : BitVec 64) : Visit :=
  ⟨⟨n, 0, true, addr⟩, .pre, fun _ => cyc, fun _ _ => closedPage⟩

/-- Thread 200 enters `main` while thread 100 enters `foo`. -/
theorem report_names_both :
    ∃ s', pipeMachine.run pipeStart (bothCall 1 0 1 ++ .exit :: afterExit 1) = .ok s' ∧
      readNames progCache (process false (outfile 200)
        (some (s'.proc.os.files (outfile 200)))).2.stdout = some [(some "main".toList, false)] ∧
      readNames progCache (process false (outfile 100)
        (some (s'.proc.os.files (outfile 100)))).2.stdout = some [(some "foo".toList, false)] := by
  have hvalid : ValidTid 100 := ⟨by decide, by decide⟩
  obtain ⟨s, s', hs, hs', hnames⟩ := report_names profiled_main
    (rfl : LoadEnv.granting.openCache = true) hvalid (lprobeInit_ok hvalid soloInit_eq) (by decide)
    (by simp [bothCall]) (legal_bothCall 0 1)
  have hslot₀ : (s.proc.slot 0).state = .running ∧ (s.proc.slot 0).tid = 100 ∧
      ∃ l, (s.proc.slot 0).evlist = some l ∧ l.entries.length = 1 := by
    cases hs
    exact ⟨rfl, rfl, _, rfl, rfl⟩
  have hslot₁ : (s.proc.slot 1).state = .running ∧ (s.proc.slot 1).tid = 200 ∧
      ∃ l, (s.proc.slot 1).evlist = some l ∧ l.entries.length = 1 := by
    cases hs
    exact ⟨rfl, rfl, _, rfl, rfl⟩
  obtain ⟨hrun₀, htid₀, l₀, hl₀, hlen₀⟩ := hslot₀
  obtain ⟨hrun₁, htid₁, l₁, hl₁, hlen₁⟩ := hslot₁
  have hmain : (entered "main".toList 0 1000).Probed findByName true (fun _ => .granting)
      [mainObj] patternAll mutateeFs .granting mainObj := by
    unfold Visit.Probed
    decide +kernel
  have hfoo : (entered "foo".toList 1 1001).Probed findByName true (fun _ => .granting)
      [mainObj] patternAll mutateeFs .granting mainObj := by
    unfold Visit.Probed
    decide +kernel
  have hids : ∀ v : Visit, v = entered "main".toList 0 1000 ∨ v = entered "foo".toList 1 1001 →
      snippetIds (insertCount .granting (targetsOf findByName true (fun _ => .granting)
        [mainObj] patternAll mutateeFs)).2 ⟨mainObj.id, v.func⟩ v.callee = [v.func.addr] := by
    rintro v (rfl | rfl)
    · decide +kernel
    · decide +kernel
  have h₁ := hnames 1 l₁ [entered "main".toList 0 1000] hrun₁ hl₁ (by simpa using hmain) (by
    rw [htid₁, List.flatMap_singleton, Visit.calls, hids _ (.inl rfl)]
    rfl)
  have h₀ := hnames 0 l₀ [entered "foo".toList 1 1001] hrun₀ hl₀ (by simpa using hfoo) (by
    rw [htid₀, List.flatMap_singleton, Visit.calls, hids _ (.inr rfl)]
    rfl)
  rw [htid₁, hlen₁] at h₁
  rw [htid₀, hlen₀] at h₀
  exact ⟨s', hs', h₁, h₀⟩

end Lprofile.Utils
