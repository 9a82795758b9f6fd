import Lprofile.Lib.Getopt
import Lprofile.Utils.Session

/-!
# Command lines

`lprofile prof`, `wrap` and `replace` take options, the mutatee and the arguments of the
mutatee; `lprofile tracer` takes options and a process. The options for `CountUtil` are the
same in all of them. `Stop` is how `parseArgs` ends when it does not return true.

`getopt` reads options wherever they stand, also behind the mutatee. So an argument of the
mutatee reaches it only if it does not look like an option, or behind `--`
(`muttee_args_iff`). The constructors set neither `freq` nor `muttee_argv`: what
`lprobe_init` is given is what the usage text says only if the options set it
(`init_args_documented_iff`), and the destructor frees a pointer that nothing has set when
a command line is refused (`unset_freed_iff`).
-/

namespace Lprofile.Utils

open Lprofile.Lib Lprofile.Probe

/-! ## Options -/

/-- The members of `CountUtil` that options set; nothing sets `freq` before `-F` does. -/
structure CountArgs where
  pattern : CStr
  output : CStr
  evlist : CStr
  logfile : CStr
  freq : Option Nat
  deriving DecidableEq

/-- `CountUtil()`. -/
def CountArgs.initial : CountArgs := ⟨patternAll, [], [], [], none⟩

/-- `(unsigned)atoi(optarg)`. -/
def freqOf (optarg : CStr) : Nat := (atoi optarg % 2 ^ 32).toNat

/-- `CountUtil::parseOption`. -/
def parseOption (c : CountArgs) : Opt → Bool × CountArgs
  | ⟨'f', some optarg⟩ => (true, { c with pattern := optarg })
  | ⟨'o', some optarg⟩ => (true, { c with output := optarg })
  | ⟨'e', some optarg⟩ => (true, { c with evlist := optarg })
  | ⟨'F', some optarg⟩ => (freqOf optarg != 0, { c with freq := some (freqOf optarg) })
  | ⟨'l', some optarg⟩ => (true, { c with logfile := optarg })
  | _ => (false, c)

/-- The options `buildInitArgs` reads; `garbage` is what is in `freq` if nothing has set it. -/
def CountArgs.opts (c : CountArgs) (garbage : Nat) : CountOpts :=
  ⟨c.output, c.evlist, c.logfile, c.freq.getD garbage⟩

/-- `FUNCC_ARG`. -/
def funccArg : CStr := "f:e:l:F:o:".toList

inductive Stop (τ : Type) where
  /-- `return false` -/
  | refused (t : τ)
  /-- `exit(0)` -/
  | exited
  /-- a `std::string` made of a null pointer -/
  | nullString
  /-- `sprintf` past the end of its buffer -/
  | overflow
  deriving DecidableEq

/-- What the system answers: `access` with `X_OK` and with `F_OK`, and `malloc`. -/
structure ArgsEnv where
  executable : CStr → Bool
  present : CStr → Bool
  malloc : Bool

def ArgsEnv.granting : ArgsEnv := ⟨fun _ => true, fun _ => true, true⟩

/-! ## `prof`, `wrap` and `replace` -/

inductive MutteeCmd where
  | prof
  | wrap
  | replace
  deriving DecidableEq

/-- `muttee_argv`. -/
inductive Argv where
  | unset
  | null
  | args (args : List CStr)
  deriving DecidableEq

/-- The members of `ProfTest`, `WrapTest` and `ReplaceTest`. -/
structure MutteeTest where
  mode : Mode
  output : CStr
  mutteeBin : CStr
  mutteeArgv : Argv
  count : CountArgs
  deriving DecidableEq

namespace MutteeTest

/-- What the constructors leave. -/
def initial : MutteeTest := ⟨.proc, [], [], .unset, .initial⟩

/-- The switch in the loop of `parseArgs`. -/
def option (t : MutteeTest) : Opt → Except (Stop MutteeTest) MutteeTest
  | ⟨'w', some optarg⟩ => .ok { t with mode := .edit, output := optarg }
  | ⟨'h', _⟩ => .error .exited
  | o =>
    let r := parseOption t.count o
    let t := { t with count := r.2 }
    if r.1 then .ok t else .error (.refused t)

/-- `parseArgs` after its loop, on `argv` from `optind` on. Only `prof` asks for the mutatee before
it takes it. -/
def takeMuttee (env : ArgsEnv) (cmd : MutteeCmd) (t : MutteeTest) :
    List CStr → Except (Stop MutteeTest) MutteeTest
  | [] => .error (if cmd = .prof then .refused t else .nullString)
  | bin :: args =>
    let t := { t with mutteeBin := bin }
    if !env.executable bin then .error (.refused t)
    else
      match t.mode with
      | .edit => .ok { t with mutteeArgv := .null }
      | .proc =>
        if !env.malloc then .error (.refused { t with mutteeArgv := .null })
        else .ok { t with mutteeArgv := .args (bin :: args) }

def optStr : CStr := funccArg ++ "w:h".toList

def parseOpts (os : List Opt) : Except (Stop MutteeTest) MutteeTest := os.foldlM option initial

def parseArgs (env : ArgsEnv) (cmd : MutteeCmd) (args : List CStr) :
    Except (Stop MutteeTest) MutteeTest := do
  let t ← parseOpts (getopt optStr args)
  t.takeMuttee env cmd (operands optStr args)

/-- What `zfree` is called on by the destructor. -/
def zfreed (cmd : MutteeCmd) (t : MutteeTest) : Option Argv :=
  match cmd, t.mode with
  | .prof, .edit => none
  | _, _ => some t.mutteeArgv

end MutteeTest

/-! ## `tracer` -/

/-- The members of `TracerTest` that `parseArgs` sets. -/
structure TracerArgs where
  pid : Int
  count : CountArgs
  deriving DecidableEq

namespace TracerArgs

def initial : TracerArgs := ⟨-1, .initial⟩

/-- The switch; `buf` has 64 bytes. -/
def option (env : ArgsEnv) (t : TracerArgs) : Opt → Except (Stop TracerArgs) TracerArgs
  | ⟨'p', some optarg⟩ =>
    let buf := "/proc/".toList ++ optarg
    if 64 ≤ buf.length then .error .overflow
    else if !env.present buf then .error (.refused t)
    else .ok { t with pid := atoi optarg }
  | ⟨'h', _⟩ => .error .exited
  | o =>
    let r := parseOption t.count o
    let t := { t with count := r.2 }
    if r.1 then .ok t else .error (.refused t)

def optStr : CStr := funccArg ++ "p:h".toList

def parseArgs (env : ArgsEnv) (args : List CStr) : Except (Stop TracerArgs) TracerArgs := do
  let t ← (getopt optStr args).foldlM (option env) initial
  if t.pid = -1 then .error (.refused t) else .ok t

end TracerArgs

/-! ## The arguments of the mutatee -/

namespace MutteeTest

variable {env : ArgsEnv} {cmd : MutteeCmd} {t t' : MutteeTest}

/-- The vector, if there is one, is made of what `getopt` has left. -/
theorem takeMuttee_ok {ops : List CStr} (h : t.takeMuttee env cmd ops = .ok t') :
    t'.count = t.count ∧ (t'.mutteeArgv = .null ∨ t'.mutteeArgv = .args ops) := by
  cases ops with
  | nil => cases h
  | cons bin ops =>
    simp only [takeMuttee] at h
    split at h
    · cases h
    · split at h
      · cases h
        exact ⟨rfl, .inl rfl⟩
      · split at h
        · cases h
        · cases h
          exact ⟨rfl, .inr rfl⟩

theorem takeMuttee_proc (cmd : MutteeCmd) {bin : CStr} {args : List CStr}
    (hmode : t.mode = .proc) (hexec : env.executable bin = true)
    (hmalloc : env.malloc = true) :
    t.takeMuttee env cmd (bin :: args) =
      .ok { t with mutteeBin := bin, mutteeArgv := .args (bin :: args) } := by
  simp [takeMuttee, hmode, hexec, hmalloc]

theorem parseOpts_append (os os' : List Opt) :
    parseOpts (os ++ os') = (parseOpts os).bind fun t => os'.foldlM option t :=
  List.foldlM_append ..

/-- **The arguments of the mutatee** reach it as they are exactly if none of them looks like an
option; behind `--` they always do. -/
theorem muttee_args_iff {opts args : List CStr} {bin : CStr}
    (hopts : OptionsOnly optStr none opts) (hok : parseOpts (getopt optStr opts) = .ok t)
    (hmode : t.mode = .proc) (hbin : OptionLike bin = false) (hexec : env.executable bin = true)
    (hmalloc : env.malloc = true) :
    ((∃ t', parseArgs env cmd (opts ++ bin :: args) = .ok t' ∧
        t'.mutteeArgv = .args (bin :: args)) ↔ ∀ arg ∈ args, OptionLike arg = false) ∧
      parseArgs env cmd (opts ++ "--".toList :: bin :: args) =
        .ok { t with mutteeBin := bin, mutteeArgv := .args (bin :: args) } := by
  obtain ⟨hget, hoperands⟩ := hopts.append (bin :: args)
  rw [getopt_cons hbin] at hget
  rw [operands_cons hbin] at hoperands
  have hparse : parseArgs env cmd (opts ++ bin :: args) =
      ((getopt optStr args).foldlM option t).bind fun t =>
        t.takeMuttee env cmd (bin :: operands optStr args) := by
    simp only [parseArgs, hget, hoperands, parseOpts_append, hok]
    rfl
  refine ⟨⟨?_, fun h => ?_⟩, ?_⟩
  · rintro ⟨t', ht', hargs⟩
    rw [hparse] at ht'
    cases hrest : (getopt optStr args).foldlM option t with
    | error e =>
      rw [hrest] at ht'
      cases ht'
    | ok t₁ =>
      rw [hrest] at ht'
      have htake : t₁.takeMuttee env cmd (bin :: operands optStr args) = .ok t' := ht'
      rcases (takeMuttee_ok htake).2 with hnull | hvec
      · rw [hnull] at hargs
        cases hargs
      · rw [hvec] at hargs
        exact operands_eq_self.1 (List.cons.inj (Argv.args.inj hargs)).2
  · rw [hparse, getopt_operands h, operands_eq_self.2 h]
    exact ⟨_, takeMuttee_proc cmd hmode hexec hmalloc, rfl⟩
  · obtain ⟨hget', hoperands'⟩ := hopts.append ("--".toList :: bin :: args)
    have hend : getopt optStr ("--".toList :: bin :: args) = [] := rfl
    simp only [parseArgs, hget', hoperands', hend, List.append_nil, hok]
    exact takeMuttee_proc cmd hmode hexec hmalloc

/-- `./app -v` under `prof -e cycles`: the option of the mutatee is taken for one of `prof`. -/
theorem muttee_args_iff_verbose :
    (¬ ∃ t, parseArgs .granting .prof ["-e".toList, "cycles".toList, "./app".toList, "-v".toList] =
        .ok t ∧ t.mutteeArgv = .args ["./app".toList, "-v".toList]) ∧
      ∃ t, parseArgs .granting .prof
          ["-e".toList, "cycles".toList, "--".toList, "./app".toList, "-v".toList] = .ok t ∧
        t.mutteeArgv = .args ["./app".toList, "-v".toList] := by
  have hopts : OptionsOnly optStr none ["-e".toList, "cycles".toList] := rfl
  obtain ⟨hiff, hend⟩ := @muttee_args_iff .granting .prof _ _ ["-v".toList] "./app".toList hopts
    rfl rfl rfl rfl rfl
  refine ⟨fun h => ?_, _, hend, rfl⟩
  exact absurd (hiff.1 h "-v".toList (by simp)) (by decide)

end MutteeTest

/-! ## What the options set -/

/-- The options `os` turn `c` into `c'`: of each kind the last one counts. -/
structure Sets (os : List Opt) (c c' : CountArgs) : Prop where
  pattern : c'.pattern = (lastArg 'f' os).getD c.pattern
  evlist : c'.evlist = (lastArg 'e' os).getD c.evlist
  logfile : c'.logfile = (lastArg 'l' os).getD c.logfile
  freq : c'.freq = ((lastArg 'F' os).map freqOf).or c.freq

theorem sets_nil (c : CountArgs) : Sets [] c c := ⟨rfl, rfl, rfl, rfl⟩

theorem Sets.cons {o : Opt} {os : List Opt} {c c₁ c' : CountArgs} (ho : Sets [o] c c₁)
    (hos : Sets os c₁ c') : Sets (o :: os) c c' := by
  have hlast : ∀ k, lastArg k (o :: os) = (lastArg k os).or (lastArg k [o]) := fun _ => rfl
  refine ⟨?_, ?_, ?_, ?_⟩
  · rw [hos.pattern, ho.pattern, hlast]
    cases lastArg 'f' os <;> rfl
  · rw [hos.evlist, ho.evlist, hlast]
    cases lastArg 'e' os <;> rfl
  · rw [hos.logfile, ho.logfile, hlast]
    cases lastArg 'l' os <;> rfl
  · rw [hos.freq, ho.freq, hlast]
    cases lastArg 'F' os <;> rfl

theorem sets_parseOption {o : Opt} {c : CountArgs} (h : (parseOption c o).1 = true) :
    Sets [o] c (parseOption c o).2 := by
  unfold parseOption at h ⊢
  split at h
  all_goals first | exact ⟨rfl, rfl, rfl, rfl⟩ | cases h

/-- An option of the command itself. -/
theorem sets_other {o : Opt} (h : o.c ∉ ['f', 'e', 'l', 'F']) (c : CountArgs) : Sets [o] c c := by
  simp only [List.mem_cons, List.not_mem_nil, or_false, not_or] at h
  obtain ⟨hf, he, hl, hF⟩ := h
  refine ⟨?_, ?_, ?_, ?_⟩
  · simp [lastArg, hf]
  · simp [lastArg, he]
  · simp [lastArg, hl]
  · simp [lastArg, hF]

/-- **A loop over the options**, whatever else is in the test. -/
theorem sets_foldlM {τ ε : Type} {option : τ → Opt → Except ε τ} {count : τ → CountArgs}
    (hstep : ∀ t o t', option t o = .ok t' → Sets [o] (count t) (count t')) {os : List Opt}
    {t t' : τ} (h : os.foldlM option t = .ok t') : Sets os (count t) (count t') := by
  induction os generalizing t with
  | nil =>
    cases h
    exact sets_nil _
  | cons o os ih =>
    rw [List.foldlM_cons] at h
    cases ho : option t o with
    | error e =>
      rw [ho] at h
      cases h
    | ok t₁ =>
      rw [ho] at h
      exact (hstep t o t₁ ho).cons (ih h)

theorem MutteeTest.sets_option {t t' : MutteeTest} {o : Opt} (h : t.option o = .ok t') :
    Sets [o] t.count t'.count := by
  unfold MutteeTest.option at h
  split at h
  · cases h
    exact sets_other (by simp) _
  · cases h
  · dsimp only at h
    split at h
    · rename_i hok
      cases h
      exact sets_parseOption hok
    · cases h

theorem TracerArgs.sets_option {env : ArgsEnv} {t t' : TracerArgs} {o : Opt}
    (h : TracerArgs.option env t o = .ok t') : Sets [o] t.count t'.count := by
  unfold TracerArgs.option at h
  split at h
  · dsimp only at h
    split at h
    · cases h
    · split at h
      · cases h
      · cases h
        exact sets_other (by simp) _
  · cases h
  · dsimp only at h
    split at h
    · rename_i hok
      cases h
      exact sets_parseOption hok
    · cases h

theorem MutteeTest.sets_parseArgs {env : ArgsEnv} {cmd : MutteeCmd} {args : List CStr}
    {t : MutteeTest} (h : parseArgs env cmd args = .ok t) :
    Sets (getopt optStr args) .initial t.count := by
  unfold parseArgs at h
  cases hos : parseOpts (getopt optStr args) with
  | error e =>
    rw [hos] at h
    cases h
  | ok t₁ =>
    rw [hos] at h
    have htake : t₁.takeMuttee env cmd (operands optStr args) = .ok t := h
    rw [(takeMuttee_ok htake).1]
    exact sets_foldlM (fun _ _ _ => sets_option) hos

theorem TracerArgs.sets_parseArgs {env : ArgsEnv} {args : List CStr} {t : TracerArgs}
    (h : parseArgs env args = .ok t) : Sets (getopt optStr args) .initial t.count := by
  unfold parseArgs at h
  cases hos : (getopt optStr args).foldlM (option env) initial with
  | error e =>
    rw [hos] at h
    cases h
  | ok t₁ =>
    rw [hos] at h
    simp only [bind, Except.bind] at h
    split at h
    · cases h
    · cases h
      exact sets_foldlM (fun _ _ _ => sets_option) hos

/-- The arguments of `lprobe_init` as the usage text has them. -/
def documentedArgs (os : List Opt) (c : CountUtil) : InitArgs where
  evlist := (lastArg 'e' os).getD "cpu-cycles".toList
  logfile := (lastArg 'l' os).getD "profile.log".toList
  min := (calculateRange c.targetFuncs).1
  max := (calculateRange c.targetFuncs).2
  freq := ((lastArg 'F' os).map freqOf).getD 0

/-- A text with the default `d` in the code and `e` in the usage text. -/
theorem default_eq_iff {d e : CStr} (hd : d ≠ []) (x : Option CStr) :
    (if (x.getD []).length = 0 then d else x.getD []) = x.getD e ↔
      (∃ y, x = some y ∧ y ≠ []) ∨ (x = none ∧ d = e) := by
  cases x with
  | none => simp
  | some y =>
    cases y with
    | nil => simp [hd]
    | cons c cs => simp

theorem Sets.documented_iff {os : List Opt} {c : CountArgs} (h : Sets os .initial c)
    (count : CountUtil) :
    (∀ garbage, buildInitArgs (c.opts garbage) count = documentedArgs os count) ↔
      (∃ evlist, lastArg 'e' os = some evlist ∧ evlist ≠ []) ∧ lastArg 'l' os ≠ some [] ∧
        (lastArg 'F' os).isSome := by
  have hevlist : ∀ garbage,
      (buildInitArgs (c.opts garbage) count).evlist = (documentedArgs os count).evlist ↔
        ∃ evlist, lastArg 'e' os = some evlist ∧ evlist ≠ [] := by
    intro garbage
    have hlist : (c.opts garbage).evlist = (lastArg 'e' os).getD [] := h.evlist
    have hne : evlistDef ≠ "cpu-cycles".toList := by decide
    simp only [buildInitArgs, documentedArgs, hlist]
    rw [default_eq_iff (by decide)]
    exact or_iff_left fun hdef => hne hdef.2
  have hlogfile : ∀ garbage,
      (buildInitArgs (c.opts garbage) count).logfile = (documentedArgs os count).logfile ↔
        lastArg 'l' os ≠ some [] := by
    intro garbage
    have hlog : (c.opts garbage).logfile = (lastArg 'l' os).getD [] := h.logfile
    simp only [buildInitArgs, documentedArgs, hlog]
    rw [default_eq_iff (by decide)]
    cases lastArg 'l' os with
    | none => exact iff_of_true (.inr ⟨rfl, rfl⟩) (by simp)
    | some logfile => simp
  have hfreq : (∀ garbage, (buildInitArgs (c.opts garbage) count).freq =
      (documentedArgs os count).freq) ↔ (lastArg 'F' os).isSome := by
    have hset : c.freq = (lastArg 'F' os).map freqOf := h.freq.trans (Option.or_none ..)
    simp only [buildInitArgs, documentedArgs, CountArgs.opts, hset]
    cases lastArg 'F' os with
    | none =>
      -- nothing has set it: any number may be there, and one is not 0
      refine iff_of_false (fun hall => ?_) (by simp)
      exact absurd (hall 1) (by simp)
    | some freq => simp
  rw [← hevlist 0, ← hlogfile 0, ← hfreq]
  refine ⟨fun hall => ?_, fun ⟨he, hl, hF⟩ garbage => ?_⟩
  · exact ⟨by rw [hall], by rw [hall], fun garbage => by rw [hall]⟩
  · have he' := (hevlist garbage).2 ((hevlist 0).1 he)
    have hl' := (hlogfile garbage).2 ((hlogfile 0).1 hl)
    have hF' := hF garbage
    exact InitArgs.ext he' hl' rfl rfl hF'

/-- **The arguments of `lprobe_init`** are those of the usage text exactly if the options name an
event and a frequency, and do not name the log file with an empty text. -/
theorem init_args_documented_iff (env : ArgsEnv) (args : List CStr) (count : CountUtil) :
    (∀ t, MutteeTest.parseArgs env .prof args = .ok t →
      ((∀ garbage, buildInitArgs (t.count.opts garbage) count =
          documentedArgs (getopt MutteeTest.optStr args) count) ↔
        (∃ evlist, lastArg 'e' (getopt MutteeTest.optStr args) = some evlist ∧ evlist ≠ []) ∧
          lastArg 'l' (getopt MutteeTest.optStr args) ≠ some [] ∧
          (lastArg 'F' (getopt MutteeTest.optStr args)).isSome)) ∧
    ∀ t, TracerArgs.parseArgs env args = .ok t →
      ((∀ garbage, buildInitArgs (t.count.opts garbage) count =
          documentedArgs (getopt TracerArgs.optStr args) count) ↔
        (∃ evlist, lastArg 'e' (getopt TracerArgs.optStr args) = some evlist ∧ evlist ≠ []) ∧
          lastArg 'l' (getopt TracerArgs.optStr args) ≠ some [] ∧
          (lastArg 'F' (getopt TracerArgs.optStr args)).isSome) :=
  ⟨fun _ ht => (MutteeTest.sets_parseArgs ht).documented_iff count,
    fun _ ht => (TracerArgs.sets_parseArgs ht).documented_iff count⟩

/-- Without options the event is another one, and the frequency any. -/
theorem init_args_documented_iff_bare : ∃ t,
    MutteeTest.parseArgs .granting .prof ["./app".toList] = .ok t ∧
      ¬ ∀ garbage, buildInitArgs (t.count.opts garbage) (.new patternAll) =
        documentedArgs [] (.new patternAll) := by
  refine ⟨_, rfl, fun h => ?_⟩
  have hiff := (init_args_documented_iff .granting ["./app".toList] (.new patternAll)).1 _ rfl
  obtain ⟨⟨evlist, he, -⟩, -, -⟩ := hiff.1 h
  cases he

/-! ## Refused command lines -/

namespace MutteeTest

variable {env : ArgsEnv} {cmd : MutteeCmd} {t : MutteeTest}

/-- The switch takes the option and goes on. -/
def Takes (o : Opt) : Bool := (o.c == 'w' && o.optarg.isSome) || (parseOption .initial o).1

/-- `parseArgs` returns false before it has come to `muttee_argv`, and `seen` are the options it
has taken. -/
def RefusedAfter (env : ArgsEnv) (cmd : MutteeCmd) (args : List CStr) (seen : List Opt) : Prop :=
  (∀ o ∈ seen, Takes o = true) ∧
    ((∃ o rest, getopt optStr args = seen ++ o :: rest ∧ Takes o = false ∧ o.c ≠ 'h') ∨
      (getopt optStr args = seen ∧
        match operands optStr args with
        | [] => cmd = .prof
        | bin :: _ => env.executable bin = false))

/-- The mode after the options `os`. -/
def modeAfter (mode : Mode) (os : List Opt) : Mode :=
  if ∃ o ∈ os, o.c = 'w' then .edit else mode

theorem parseOption_fst (c c' : CountArgs) (o : Opt) :
    (parseOption c o).1 = (parseOption c' o).1 := by
  unfold parseOption
  split <;> rfl

/-- What the switch does. -/
theorem option_cases (t : MutteeTest) (o : Opt) :
    (Takes o = true ∧ ∃ t', t.option o = .ok t' ∧ t'.mutteeArgv = t.mutteeArgv ∧
      t'.mode = modeAfter t.mode [o]) ∨
    (Takes o = false ∧ o.c = 'h' ∧ t.option o = .error .exited) ∨
    (Takes o = false ∧ o.c ≠ 'h' ∧ ∃ t', t.option o = .error (.refused t') ∧
      t'.mutteeArgv = t.mutteeArgv ∧ t'.mode = t.mode) := by
  unfold option
  split
  · exact .inl ⟨rfl, _, rfl, rfl, rfl⟩
  · exact .inr (.inl ⟨rfl, rfl, rfl⟩)
  · rename_i hw hh
    have hh' : o.c ≠ 'h' := by
      rintro hc
      obtain ⟨c, optarg⟩ := o
      cases hc
      exact hh _ rfl
    have hw' : ¬ (o.c = 'w' ∧ o.optarg.isSome) := by
      rintro ⟨hc, hsome⟩
      obtain ⟨c, optarg⟩ := o
      obtain ⟨text, rfl⟩ := Option.isSome_iff_exists.1 hsome
      cases hc
      exact hw text rfl
    have htakes : Takes o = (parseOption t.count o).1 := by
      rw [parseOption_fst t.count .initial]
      simp only [Takes, Bool.or_eq_right_iff_imp, Bool.and_eq_true, beq_iff_eq]
      exact fun h => absurd h hw'
    dsimp only
    cases hr : (parseOption t.count o).1 with
    | true =>
      have hcw : o.c ≠ 'w' := by
        rintro hc
        obtain ⟨c, optarg⟩ := o
        cases hc
        cases optarg <;> cases hr
      refine .inl ⟨htakes.trans hr, _, rfl, rfl, ?_⟩
      simp [modeAfter, hcw]
    | false => exact .inr (.inr ⟨htakes.trans hr, hh', _, rfl, rfl, rfl⟩)

theorem modeAfter_cons (mode : Mode) (o : Opt) (os : List Opt) :
    modeAfter (modeAfter mode [o]) os = modeAfter mode (o :: os) := by
  simp only [modeAfter, List.mem_cons, List.not_mem_nil, or_false, exists_eq_left, exists_eq_or_imp]
  by_cases ho : o.c = 'w' <;> simp [ho]

/-- What the loop does. -/
theorem foldlM_option_cases (t : MutteeTest) (os : List Opt) :
    ((∀ o ∈ os, Takes o = true) ∧ ∃ t', os.foldlM option t = .ok t' ∧
      t'.mutteeArgv = t.mutteeArgv ∧ t'.mode = modeAfter t.mode os) ∨
    ∃ seen o rest, os = seen ++ o :: rest ∧ (∀ p ∈ seen, Takes p = true) ∧ Takes o = false ∧
      ((o.c = 'h' ∧ os.foldlM option t = .error .exited) ∨
        (o.c ≠ 'h' ∧ ∃ t', os.foldlM option t = .error (.refused t') ∧
          t'.mutteeArgv = t.mutteeArgv ∧ t'.mode = modeAfter t.mode seen)) := by
  induction os generalizing t with
  | nil => exact .inl ⟨by simp, t, rfl, rfl, by simp [modeAfter]⟩
  | cons o os ih =>
    rw [List.foldlM_cons]
    rcases option_cases t o with ⟨ho, t₁, hopt, hargv, hmode⟩ | ⟨ho, hc, hopt⟩ |
      ⟨ho, hc, t₁, hopt, hargv, hmode⟩
    · rw [hopt]
      rcases ih t₁ with ⟨hos, t', hfold, hargv', hmode'⟩ | ⟨seen, p, rest, hos, hseen, hp, hend⟩
      · refine .inl ⟨List.forall_mem_cons.2 ⟨ho, hos⟩, t', hfold, hargv'.trans hargv, ?_⟩
        rw [hmode', hmode, modeAfter_cons]
      · have hcons : o :: os = (o :: seen) ++ p :: rest := by rw [hos, List.cons_append]
        refine .inr ⟨o :: seen, p, rest, hcons, List.forall_mem_cons.2 ⟨ho, hseen⟩, hp, ?_⟩
        refine hend.imp id fun ⟨hc, t', hfold, hargv', hmode'⟩ => ?_
        refine ⟨hc, t', hfold, hargv'.trans hargv, ?_⟩
        rw [hmode', hmode, modeAfter_cons]
    · rw [hopt]
      exact .inr ⟨[], o, os, rfl, by simp, ho, .inl ⟨hc, rfl⟩⟩
    · rw [hopt]
      refine .inr ⟨[], o, os, rfl, by simp, ho, .inr ⟨hc, t₁, rfl, hargv, ?_⟩⟩
      rw [hmode]
      simp [modeAfter]

theorem takeMuttee_refused {ops : List CStr} (t : MutteeTest) :
    (∃ t', t.takeMuttee env cmd ops = .error (.refused t') ∧ t'.zfreed cmd = some .unset) ↔
      (match ops with
        | [] => cmd = .prof
        | bin :: _ => env.executable bin = false) ∧
      t.zfreed cmd = some .unset := by
  cases ops with
  | nil =>
    simp only [takeMuttee]
    by_cases hcmd : cmd = .prof
    · simp [hcmd]
    · simp [hcmd]
  | cons bin ops =>
    simp only [takeMuttee]
    cases hexec : env.executable bin with
    | false => simp [zfreed]
    | true =>
      cases hmode : t.mode with
      | edit => simp
      | proc =>
        cases hmalloc : env.malloc with
        | false => simp [zfreed, hmode]
        | true => simp

theorem zfreed_unset_iff {seen : List Opt} (hargv : t.mutteeArgv = .unset)
    (hmode : t.mode = modeAfter .proc seen) :
    t.zfreed cmd = some .unset ↔ (cmd = .prof → ∀ o ∈ seen, o.c ≠ 'w') := by
  unfold zfreed
  rw [hargv, hmode, modeAfter]
  by_cases hw : ∃ o ∈ seen, o.c = 'w'
  · rw [if_pos hw]
    obtain ⟨o, ho, hc⟩ := hw
    cases cmd with
    | prof => exact iff_of_false (by simp) fun h => h rfl o ho hc
    | wrap | replace => exact iff_of_true rfl fun h => by cases h
  · rw [if_neg hw]
    have hnone : ∀ o ∈ seen, o.c ≠ 'w' := fun o ho hc => hw ⟨o, ho, hc⟩
    cases cmd <;> exact iff_of_true rfl fun _ => hnone

/-- The first option that is not taken is one, and so are the options before it. -/
theorem first_not_taken {os seen rest : List Opt} {o : Opt} (hos : os = seen ++ o :: rest)
    (hseen : ∀ p ∈ seen, Takes p = true) (ho : Takes o = false) :
    os.takeWhile Takes = seen ∧ os.dropWhile Takes = o :: rest := by
  have hneg : ¬ Takes o = true := by simp [ho]
  rw [hos, List.takeWhile_append_of_pos hseen, List.dropWhile_append_of_pos hseen,
    List.takeWhile_cons_of_neg hneg, List.dropWhile_cons_of_neg hneg, List.append_nil]
  exact ⟨rfl, rfl⟩

/-- **Refused command lines.** The destructor is called on a pointer that nothing has set exactly
if the command line is refused, and `prof` has not seen `-w`. -/
theorem unset_freed_iff (env : ArgsEnv) (cmd : MutteeCmd) (args : List CStr) :
    ((∃ t, parseArgs env cmd args = .error (.refused t) ∧ t.zfreed cmd = some .unset) ↔
        ∃ seen, RefusedAfter env cmd args seen ∧ (cmd = .prof → ∀ o ∈ seen, o.c ≠ 'w')) ∧
      ∀ t, parseArgs env cmd args = .ok t → t.zfreed cmd ≠ some .unset := by
  unfold RefusedAfter parseArgs parseOpts
  rcases foldlM_option_cases initial (getopt optStr args) with
    ⟨hall, t, hfold, hargv, hmode⟩ | ⟨seen, o, rest, hos, hseen, ho, hend⟩
  · -- the loop goes to its end, and what is left is about the mutatee
    rw [hfold]
    refine ⟨?_, fun t' ht' => ?_⟩
    · refine (takeMuttee_refused t).trans ?_
      rw [zfreed_unset_iff hargv hmode]
      constructor
      · rintro ⟨hops, hw⟩
        exact ⟨_, ⟨hall, .inr ⟨rfl, hops⟩⟩, hw⟩
      · rintro ⟨seen, ⟨-, ⟨o, rest, hos, ho, -⟩ | ⟨rfl, hops⟩⟩, hw⟩
        · rw [hall o (by simp [hos])] at ho
          cases ho
        · exact ⟨hops, hw⟩
    · have hset : t'.mutteeArgv ≠ .unset := by
        rcases (takeMuttee_ok (ht' : t.takeMuttee env cmd _ = .ok t')).2 with h | h <;> simp [h]
      unfold zfreed
      split
      · simp
      · simpa using hset
  · obtain ⟨htake, hdrop⟩ := first_not_taken hos hseen ho
    have honly : ∀ {seen' : List Opt}, (∀ p ∈ seen', Takes p = true) →
        ¬ getopt optStr args = seen' := by
      rintro seen' htaken rfl
      rw [htaken o (by simp [hos])] at ho
      cases ho
    rcases hend with ⟨hc, hfold⟩ | ⟨hc, t, hfold, hargv, hmode⟩
    · rw [hfold]
      refine ⟨iff_of_false ?_ ?_, fun t ht => by cases ht⟩
      · rintro ⟨t, ht, -⟩
        cases ht
      · rintro ⟨seen', ⟨htaken, ⟨o', rest', hos', ho', hc'⟩ | ⟨heq, -⟩⟩, -⟩
        · obtain ⟨-, hdrop'⟩ := first_not_taken hos' htaken ho'
          rw [hdrop] at hdrop'
          cases hdrop'
          exact hc' hc
        · exact honly htaken heq
    · rw [hfold]
      refine ⟨?_, fun t ht => by cases ht⟩
      constructor
      · rintro ⟨t', ht', hunset⟩
        cases ht'
        exact ⟨seen, ⟨hseen, .inl ⟨o, rest, hos, ho, hc⟩⟩, (zfreed_unset_iff hargv hmode).1 hunset⟩
      · rintro ⟨seen', ⟨htaken, ⟨o', rest', hos', ho', -⟩ | ⟨heq, -⟩⟩, hw⟩
        · obtain ⟨htake', -⟩ := first_not_taken hos' htaken ho'
          rw [htake] at htake'
          cases htake'
          exact ⟨t, rfl, (zfreed_unset_iff hargv hmode).2 hw⟩
        · exact absurd heq (honly htaken)

/-- `lprofile prof` alone. -/
theorem unset_freed_iff_bare : ∃ t,
    parseArgs .granting .prof [] = .error (.refused t) ∧ t.zfreed .prof = some .unset :=
  (unset_freed_iff .granting .prof []).1.2 ⟨[], ⟨by simp, .inr ⟨rfl, rfl⟩⟩, by simp⟩

end MutteeTest

end Lprofile.Utils
