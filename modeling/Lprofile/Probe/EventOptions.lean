import Lprofile.Probe.EventString

/-!
# Event options

The options of an event say where it counts: `u` in user space, `k` in kernel
space. The attributes say where it does not, and `prof_evsel__parse` starts with
`exclude_kernel` set. `__evsel__parse_opt` never clears a flag, so an event with
the option `k` still does not count in the kernel: the options mean what they
say exactly where there is no `k` (`options_mean_iff`).
-/

namespace Lprofile.Probe

open Lprofile.Lib

/-- The text for an event: its name, and the options after a `:` if there is one. -/
def eventText (name : CStr) : Option CStr → CStr
  | none => name
  | some opts => name ++ ':' :: opts

/-- The options that have a meaning. -/
def isOption (c : Char) : Bool := c == 'u' || c == 'k'

/-- The attributes count where the options say. -/
structure CountsWhere (opts : CStr) (attr : PerfEventAttr) : Prop where
  kernel : attr.excludeKernel = false ↔ 'k' ∈ opts
  user : attr.excludeUser = false ↔ ¬ ('k' ∈ opts ∧ 'u' ∉ opts)

/-- The text parses to attributes that count where the options say, and unknown options have no
effect. -/
def OptionsMean (name : CStr) (opts : Option CStr) : Prop :=
  ∃ attr, profEvselParse (eventText name opts) = some (name, attr) ∧
    CountsWhere (opts.getD []) attr ∧
    profEvselParse (eventText name (opts.map (·.filter isOption))) = some (name, attr)

/-! ## The two flags -/

theorem parseOptFlags_eq (opt : CStr) :
    parseOptFlags opt = (decide ('u' ∈ opt), decide ('k' ∈ opt)) := by
  induction opt with
  | nil => rfl
  | cons c cs ih =>
    simp only [parseOptFlags, ih, List.mem_cons, eq_comm, Bool.decide_or, Prod.mk.injEq]
    exact ⟨rfl, rfl⟩

theorem parseOptFlags_filter (opt : CStr) :
    parseOptFlags (opt.filter isOption) = parseOptFlags opt := by
  have hmem : ∀ c, isOption c = true → (c ∈ opt.filter isOption ↔ c ∈ opt) := by
    intro c hc
    rw [List.mem_filter, and_iff_left hc]
  simp only [parseOptFlags_eq, hmem 'u' rfl, hmem 'k' rfl]

theorem evselParseOpt_filter (opt : CStr) (attr : PerfEventAttr) :
    evselParseOpt (opt.filter isOption) attr = evselParseOpt opt attr := by
  unfold evselParseOpt
  rw [parseOptFlags_filter]

/-- No option clears `exclude_kernel`. -/
theorem evselParseOpt_excludeKernel (opt : CStr) {attr : PerfEventAttr}
    (h : attr.excludeKernel = true) : (evselParseOpt opt attr).excludeKernel = true := by
  unfold evselParseOpt
  dsimp only
  split
  · rfl
  · split
    · exact h
    · exact h

theorem evselParseOpt_excludeUser (opt : CStr) {attr : PerfEventAttr}
    (h : attr.excludeUser = false) :
    (evselParseOpt opt attr).excludeUser = false ↔ ¬ ('k' ∈ opt ∧ 'u' ∉ opt) := by
  unfold evselParseOpt
  rw [parseOptFlags_eq]
  by_cases hu : 'u' ∈ opt <;> by_cases hk : 'k' ∈ opt <;> simp [hu, hk, h]

/-! ## Parsing -/

theorem colon_not_mem_of_known {name : CStr} (h : (profPmuFind name).isSome) : ':' ∉ name := by
  have hall : ∀ pmu ∈ pmuList, ':' ∉ pmu.name := by decide
  obtain ⟨pmu, hpmu⟩ := Option.isSome_iff_exists.1 h
  have hname : pmu.name = name := by simpa using List.find?_some hpmu
  rw [← hname]
  exact hall pmu (List.mem_of_find?_eq_some hpmu)

theorem strchr_eventText {name : CStr} (h : ':' ∉ name) (opts : CStr) :
    strchr (eventText name (some opts)) ':' = some name.length := by
  refine List.idxOf?_eq_some_iff.2 ⟨by simp [eventText], by simp [eventText], fun j hj e => ?_⟩
  simp only [eventText, List.getElem_append_left hj] at e
  exact h (e ▸ List.getElem_mem hj)

/-- The attributes before the options are read. -/
def defaultAttr (pmu : ProfPmu) : PerfEventAttr :=
  { PerfEventAttr.zero with
    type := pmu.type, config := pmu.config, disabled := true, inherit := false,
    excludeKernel := true }

/-- A `:` with nothing after it is as good as none. -/
theorem profEvselParse_eventText {name : CStr} {pmu : ProfPmu} (h : profPmuFind name = some pmu)
    (opts : Option CStr) : profEvselParse (eventText name opts) =
      some (name, evselParseOpt (opts.getD []) (defaultAttr pmu)) := by
  have hcolon : ':' ∉ name := colon_not_mem_of_known (by rw [h]; rfl)
  unfold profEvselParse
  cases opts with
  | none =>
    have hno : strchr name ':' = none := List.idxOf?_eq_none_iff.2 hcolon
    simp only [eventText, hno, h]
    rfl
  | some opts =>
    rw [strchr_eventText hcolon]
    have htake : (eventText name (some opts)).take name.length = name := by simp [eventText]
    have hdrop : (eventText name (some opts)).drop (name.length + 1) = opts := by
      simp [eventText]
    have hrest : (eventText name (some opts)).drop name.length = ':' :: opts := by
      simp [eventText]
    simp only [htake, hdrop, hrest, h]
    cases opts with
    | nil => rfl
    | cons c cs => rfl

/-- **Event options mean what the comment says exactly where there is no `k`.** -/
theorem options_mean_iff (name : CStr) (hname : (profPmuFind name).isSome) (opts : Option CStr) :
    OptionsMean name opts ↔ 'k' ∉ opts.getD [] := by
  obtain ⟨pmu, hpmu⟩ := Option.isSome_iff_exists.1 hname
  have hparse := profEvselParse_eventText hpmu opts
  have hkernel : (evselParseOpt (opts.getD []) (defaultAttr pmu)).excludeKernel = true :=
    evselParseOpt_excludeKernel _ rfl
  constructor
  · rintro ⟨attr, hattr, hcounts, -⟩ hk
    rw [hparse] at hattr
    cases hattr
    have hclear := hcounts.kernel.2 hk
    rw [hkernel] at hclear
    cases hclear
  · intro hk
    refine ⟨_, hparse, ⟨?_, evselParseOpt_excludeUser _ rfl⟩, ?_⟩
    · rw [hkernel]
      exact iff_of_false (by decide) hk
    · rw [profEvselParse_eventText hpmu]
      cases opts with
      | none => rfl
      | some opts => exact congrArg (fun a => some (name, a)) (evselParseOpt_filter opts _)

theorem options_mean_iff_user :
    OptionsMean "cpu-cycles".toList (some "u".toList) ∧ 'k' ∉ "u".toList :=
  ⟨(options_mean_iff "cpu-cycles".toList (by decide) (some "u".toList)).2 (by decide), by decide⟩

/-- `cpu-cycles:k` counts neither in the kernel nor in user space. -/
theorem kernel_option_excludes_both :
    profEvselParse "cpu-cycles:k".toList =
        some ("cpu-cycles".toList, ⟨.hardware, 0, true, false, true, true⟩) ∧
      ¬ OptionsMean "cpu-cycles".toList (some "k".toList) := by
  refine ⟨by decide, ?_⟩
  rintro ⟨attr, hattr, hcounts, -⟩
  have hparse : profEvselParse (eventText "cpu-cycles".toList (some "k".toList)) =
      some ("cpu-cycles".toList, ⟨.hardware, 0, true, false, true, true⟩) := by decide
  rw [hparse] at hattr
  cases hattr
  exact absurd (hcounts.kernel.2 (by decide)) (by decide)

end Lprofile.Probe
