import Lprofile.Utils.Wrapper

/-!
# Redirected calls

`ReplaceTest::handleFunction` points the call sites of a target at its wrapper,
and then one call inside the wrapper, the hook, at the target (`replace.cc`).
The wrapper is the one `generateWrapper` writes; `WrapStmt` are its statements
and `runStmts` is what they do: the calls in order, each with what it passes,
and the value returned.

Of Dyninst, `replaceFunctionCall` changes the given call point or fails and
changes nothing. Which of these calls succeed, and for which call points of the
wrapper `getCalledFunction` is NULL, is in `ReplaceEnv`.
-/

namespace Lprofile.Utils

open Lprofile.Lib

abbrev Word := BitVec 64

/-! ## What a wrapper does -/

/-- The calls in a wrapper: `FUNC_PRE`, `fprintf` and `FUNC_POST`. -/
inductive WrapCall where
  | pre
  | print
  | post
  deriving DecidableEq

inductive WrapStmt where
  | declRet
  | call (c : WrapCall)
  | clearRet
  | returnRet
  deriving DecidableEq

/-- The body that `generateWrapper` writes. -/
def wrapperStmts (p : BPatchFunction) : List WrapStmt :=
  (if p.hasRet then [.declRet] else []) ++ [.call .pre] ++ (if p.hasRet then [.clearRet] else []) ++
    [.call .print, .call .post] ++ (if p.hasRet then [.returnRet] else [])

def WrapStmt.text (p : BPatchFunction) (i : Nat) : WrapStmt → CStr
  | .declRet => "\tvoid *ret;\n".toList
  | .call .pre => "\tlprobe_func_entry(".toList ++ decimal i ++ ");\n".toList
  | .clearRet => "\tret = 0;\n".toList
  | .call .print => "\tfprintf(stdout, \"wrap func".toList ++ decimal i ++ " :".toList ++ p.name ++
      "\\n\");\n".toList
  | .call .post => "\tlprobe_func_exit(".toList ++ decimal i ++ ");\n".toList
  | .returnRet => "\treturn ret;\n".toList

/-- The statements are those of the text. -/
theorem wrapperBody_eq (p : BPatchFunction) (i : Nat) :
    wrapperBody p i = (wrapperStmts p).flatMap (WrapStmt.text p i) := by
  have regroup : ∀ a b₁ b₂ b₃ c d₁ d₂ d₃ d₄ d₅ e₁ e₂ e₃ f : CStr,
      a ++ b₁ ++ b₂ ++ b₃ ++ c ++ d₁ ++ d₂ ++ d₃ ++ d₄ ++ d₅ ++ e₁ ++ e₂ ++ e₃ ++ f =
        a ++ ((b₁ ++ b₂ ++ b₃) ++ (c ++ ((d₁ ++ d₂ ++ d₃ ++ d₄ ++ d₅) ++ ((e₁ ++ e₂ ++ e₃) ++ f)))) := by
    intros
    simp only [List.append_assoc]
  rw [wrapperBody, regroup]
  unfold wrapperStmts
  cases p.hasRet
  · simp only [Bool.false_eq_true, ↓reduceIte, List.nil_append, List.append_nil,
      List.cons_append, List.flatMap_cons, List.flatMap_nil]
    rfl
  · simp only [↓reduceIte, List.cons_append, List.nil_append, List.flatMap_cons, List.flatMap_nil]
    rfl

/-- What an observer sees of a run: calls of the probes, of the printer, and of the target with its
arguments. -/
inductive CallEvent where
  | funcPre (id : Nat)
  | funcPost (id : Nat)
  | print
  | func (args : List Word)
  deriving DecidableEq

/-- What the registers hold where the wrapper makes a call: the arguments of that call, and in the
other places anything. -/
structure CallRegs where
  stdout : Word
  text : Word
  other : WrapCall → Nat → Word

/-- The argument in place `k` of the call `c`. -/
def CallRegs.arg (regs : CallRegs) (id : Nat) : WrapCall → Nat → Word
  | .print, 0 => regs.stdout
  | .print, 1 => regs.text
  | .pre, 0 => BitVec.ofNat 64 id
  | .post, 0 => BitVec.ofNat 64 id
  | c, k => regs.other c k

/-- The call `c`, when the hook is pointed at a target with `n` parameters. -/
def callEvent (hook : Option WrapCall) (n id : Nat) (regs : CallRegs) (c : WrapCall) : CallEvent :=
  if hook = some c then .func ((List.range n).map (regs.arg id c))
  else
    match c with
    | .pre => .funcPre id
    | .print => .print
    | .post => .funcPost id

/-- The calls and the value returned; `ret` is the variable. -/
def runStmts (event : WrapCall → CallEvent) : List WrapStmt → Word → List CallEvent × Option Word
  | [], _ => ([], none)
  | .declRet :: ss, ret => runStmts event ss ret
  | .call c :: ss, ret =>
    let q := runStmts event ss ret
    (event c :: q.1, q.2)
  | .clearRet :: ss, _ => runStmts event ss 0
  | .returnRet :: _, ret => ([], some ret)

/-! ## Redirection -/

structure ReplaceEnv where
  /-- `findFunction` finds the wrapper. -/
  found : Bool
  /-- The call sites of the target; `replaceFunctionCall` succeeds there or not. -/
  sites : List Bool
  /-- The call points of the wrapper; `getCalledFunction` knows the callee or not. -/
  points : List (WrapCall × Bool)
  /-- `replaceFunctionCall` succeeds at the hook. -/
  hookOk : Bool

/-- Which call sites go to the wrapper, and which call of the wrapper goes to the target. -/
structure Patched where
  redirected : List Bool
  hook : Option WrapCall
  deriving DecidableEq

/-- The first loop of `handleFunction`; `false` when it returns in the middle. -/
def redirectSites : List Bool → Bool × List Bool
  | [] => (true, [])
  | ok :: sites =>
    if ok then
      let q := redirectSites sites
      (q.1, true :: q.2)
    else (false, false :: sites.map fun _ => false)

def handleFunction (env : ReplaceEnv) : Patched :=
  if !env.found then ⟨env.sites.map fun _ => false, none⟩
  else
    let r := redirectSites env.sites
    if !r.1 then ⟨r.2, none⟩
    else
      match env.points.find? fun point => !point.2 with
      | none => ⟨r.2, none⟩
      | some point => if env.hookOk then ⟨r.2, some point.1⟩ else ⟨r.2, none⟩

/-- A run of the wrapper is a probed call of the target with these arguments and this result. -/
def ProbedCall (p : BPatchFunction) (id : Nat) (args : List Word) (res : Word)
    (run : List CallEvent × Option Word) : Prop :=
  run = ([.funcPre id, .func args, .funcPost id], if p.hasRet then some res else none)

/-- Every call through a site that goes to the wrapper now is a probed call of the target. -/
def CallsPreserved (p : BPatchFunction) (id : Nat) (patched : Patched) : Prop :=
  ∀ site ∈ patched.redirected, site = true → ∀ args : List Word, args.length = p.nbParams →
    ∀ res uninit regs, ProbedCall p id args res
      (runStmts (callEvent patched.hook p.nbParams id regs) (wrapperStmts p) uninit)

/-! ## The wrapper, run -/

theorem runStmts_wrapper (event : WrapCall → CallEvent) (p : BPatchFunction) (uninit : Word) :
    runStmts event (wrapperStmts p) uninit =
      ([event .pre, event .print, event .post], if p.hasRet then some 0 else none) := by
  unfold wrapperStmts
  cases p.hasRet <;> rfl

/-- A wrapper stands in for its target only if the target takes and returns nothing and the call of
`fprintf` is pointed at it. -/
theorem wrapper_probed_iff (p : BPatchFunction) (id : Nat) (hook : Option WrapCall) :
    (∀ args : List Word, args.length = p.nbParams → ∀ res uninit regs, ProbedCall p id args res
      (runStmts (callEvent hook p.nbParams id regs) (wrapperStmts p) uninit)) ↔
      hook = some .print ∧ p.nbParams = 0 ∧ p.hasRet = false := by
  constructor
  · intro h
    have hrun := h (List.replicate p.nbParams 0) List.length_replicate 1 0 ⟨1, 0, fun _ _ => 0⟩
    rw [ProbedCall, runStmts_wrapper, Prod.mk.injEq] at hrun
    obtain ⟨hcalls, hres⟩ := hrun
    have hret : p.hasRet = false := by
      cases hr : p.hasRet with
      | false => rfl
      | true =>
        rw [hr] at hres
        exact absurd (Option.some.inj hres) (by decide)
    simp only [List.cons.injEq] at hcalls
    have hprint := hcalls.2.1
    have hhook : hook = some .print := by
      by_contra hne
      rw [callEvent, if_neg hne] at hprint
      cases hprint
    rw [callEvent, if_pos hhook, CallEvent.func.injEq] at hprint
    refine ⟨hhook, ?_, hret⟩
    -- the first argument the target gets is that of `fprintf`
    rcases hn : p.nbParams with _ | n
    · rfl
    · rw [hn, List.range_succ_eq_map, List.map_cons, List.replicate_succ, List.cons.injEq] at hprint
      have hfirst : (1 : Word) = 0 := hprint.1
      exact absurd hfirst (by decide)
  · rintro ⟨rfl, hn, hret⟩ args hargs res uninit regs
    have hnil : args = [] := List.eq_nil_of_length_eq_zero (hargs.trans hn)
    rw [ProbedCall, runStmts_wrapper, hret, hn, hnil]
    rfl

/-! ## What is left redirected -/

theorem mem_redirectSites (sites : List Bool) :
    true ∈ (redirectSites sites).2 ↔ sites.head? = some true := by
  cases sites with
  | nil => simp [redirectSites]
  | cons ok sites => cases ok <;> simp [redirectSites]

theorem redirectSites_all (sites : List Bool) :
    (redirectSites sites).1 = true ↔ ∀ ok ∈ sites, ok = true := by
  induction sites with
  | nil => simp [redirectSites]
  | cons ok sites ih => cases ok <;> simp [redirectSites, ih]

/-- A site is redirected iff the first one is. -/
theorem mem_redirected_iff (env : ReplaceEnv) :
    true ∈ (handleFunction env).redirected ↔ env.found = true ∧ env.sites.head? = some true := by
  unfold handleFunction
  cases env.found with
  | false => simp
  | true =>
    rw [← mem_redirectSites]
    simp only [Bool.not_true, Bool.false_eq_true, ↓reduceIte, true_and]
    cases (redirectSites env.sites).1 with
    | false => exact Iff.rfl
    | true =>
      cases env.points.find? fun point => !point.2 with
      | none => exact Iff.rfl
      | some point => cases env.hookOk <;> exact Iff.rfl

/-- The hook is the first call point without a known callee, if nothing fails. -/
theorem hook_eq_iff (env : ReplaceEnv) (c : WrapCall) :
    (handleFunction env).hook = some c ↔ env.found = true ∧ (∀ ok ∈ env.sites, ok = true) ∧
      (env.points.find? fun point => !point.2).map (·.1) = some c ∧ env.hookOk = true := by
  unfold handleFunction
  rw [← redirectSites_all]
  cases env.found with
  | false => simp
  | true =>
    simp only [Bool.not_true, Bool.false_eq_true, ↓reduceIte, true_and]
    cases (redirectSites env.sites).1 with
    | false => simp
    | true =>
      cases env.points.find? fun point => !point.2 with
      | none => simp
      | some point => cases env.hookOk <;> simp

/-- **Redirection preserves the program only where nothing is redirected**, or where the target
neither takes nor returns anything, all replacements succeed and the hook found is the call of
`fprintf`: the wrapper that is emitted has no call of its hook. For every target and number, every
wrapper and every pattern of failures. -/
theorem calls_preserved_iff (p : BPatchFunction) (id : Nat) (env : ReplaceEnv) :
    CallsPreserved p id (handleFunction env) ↔
      env.found = false ∨ env.sites.head? ≠ some true ∨
        (p.nbParams = 0 ∧ p.hasRet = false ∧ (∀ ok ∈ env.sites, ok = true) ∧
          (env.points.find? fun point => !point.2).map (·.1) = some .print ∧
          env.hookOk = true) := by
  have hsplit : CallsPreserved p id (handleFunction env) ↔
      (true ∈ (handleFunction env).redirected →
        (handleFunction env).hook = some .print ∧ p.nbParams = 0 ∧ p.hasRet = false) := by
    rw [← wrapper_probed_iff p id]
    constructor
    · exact fun h hmem => h true hmem rfl
    · rintro h site hsite rfl
      exact h hsite
  rw [hsplit, mem_redirected_iff, hook_eq_iff]
  cases env.found with
  | false => simp
  | true =>
    simp only [true_and, Bool.true_eq_false, false_or]
    rw [imp_iff_not_or]
    constructor
    · rintro (h | ⟨⟨ha, hb, hc⟩, hn, hr⟩)
      · exact .inl h
      · exact .inr ⟨hn, hr, ha, hb, hc⟩
    · rintro (h | ⟨hn, hr, ha, hb, hc⟩)
      · exact .inl h
      · exact .inr ⟨⟨ha, hb, hc⟩, hn, hr⟩

/-- A function with one parameter and a result, one call site, and nothing fails: the call returns
without reaching the function. -/
theorem wrapper_drops_call :
    ¬ CallsPreserved ⟨"f".toList, 1, true, 0⟩ 0
      (handleFunction ⟨true, [true], [(.pre, true), (.print, true), (.post, true)], true⟩) := by
  intro h
  have hrun := h true (by decide) rfl [5] rfl 7 0 ⟨1, 2, fun _ _ => 0⟩
  exact absurd hrun (by unfold ProbedCall; decide)

end Lprofile.Utils
