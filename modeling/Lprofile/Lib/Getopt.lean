import Lprofile.Lib.Text

/-!
# `getopt`

The options of a command line, in the order in which `getopt` returns them. An
argument that begins with a dash and is not a single dash is a cluster of option
characters; an option with a colon after it in the option string takes the rest
of its cluster or else the next argument. Operands are skipped (the GNU version
permutes them to the end), `--` ends the options. An unknown character and a
missing argument come back as `?`; what `getopt` prints for them is left out, and
so are the optional arguments of the GNU version.

`operands` are the arguments that are left at `optind` after the last call. They are the
arguments themselves exactly if none of them looks like an option (`operands_eq_self`).
-/

namespace Lprofile.Lib

/-- A result of `getopt`: the character, and `optarg`. -/
structure Opt where
  c : Char
  optarg : Option CStr
  deriving DecidableEq, Repr

/-- Whether the option takes an argument; `none` if there is no such option. -/
def optKind (c : Char) : CStr → Option Bool
  | [] => none
  | d :: ds => if d = c ∧ d ≠ ':' then some (ds.head? == some ':') else optKind c ds

/-- The options of one cluster, and the one at its end that still wants an argument. -/
def optCluster (optstring : CStr) : CStr → List Opt × Option Char
  | [] => ([], none)
  | c :: cs =>
    match optKind c optstring with
    | none =>
      let r := optCluster optstring cs
      (⟨'?', none⟩ :: r.1, r.2)
    | some false =>
      let r := optCluster optstring cs
      (⟨c, none⟩ :: r.1, r.2)
    | some true => if cs = [] then ([], some c) else ([⟨c, some cs⟩], none)

/-- What the calls of `getopt` return before -1; `want` is the option that takes the next
argument. -/
def getoptFrom (optstring : CStr) : Option Char → List CStr → List Opt
  | none, [] => []
  | some _, [] => [⟨'?', none⟩]
  | some c, arg :: args => ⟨c, some arg⟩ :: getoptFrom optstring none args
  | none, arg :: args =>
    match arg with
    | ['-', '-'] => []
    | '-' :: c :: cs =>
      let r := optCluster optstring (c :: cs)
      r.1 ++ getoptFrom optstring r.2 args
    | _ => getoptFrom optstring none args

/-- The options in the arguments after `argv[0]`. -/
def getopt (optstring : CStr) (args : List CStr) : List Opt := getoptFrom optstring none args

example : getopt "f:c".toList ["-cf".toList, "x".toList, "-fy".toList, "--".toList, "-c".toList] =
    [⟨'c', none⟩, ⟨'f', some "x".toList⟩, ⟨'f', some "y".toList⟩] := by decide

/-- The argument of the last option `c`. -/
def lastArg (c : Char) : List Opt → Option CStr
  | [] => none
  | o :: os => (lastArg c os).or (if o.c = c then o.optarg else none)

/-! ## Operands -/

def operandsFrom (optstring : CStr) : Option Char → List CStr → List CStr
  | _, [] => []
  | some _, _ :: args => operandsFrom optstring none args
  | none, arg :: args =>
    match arg with
    | ['-', '-'] => args
    | '-' :: c :: cs => operandsFrom optstring (optCluster optstring (c :: cs)).2 args
    | _ => arg :: operandsFrom optstring none args

/-- `argv` from `optind` on, when `getopt` has returned -1. -/
def operands (optstring : CStr) (args : List CStr) : List CStr := operandsFrom optstring none args

/-- A cluster of options, or the end of them. -/
def OptionLike : CStr → Bool
  | '-' :: _ :: _ => true
  | _ => false

/-- The arguments are options with their arguments, and nothing else. -/
def OptionsOnly (optstring : CStr) : Option Char → List CStr → Prop
  | want, [] => want = none
  | some _, _ :: args => OptionsOnly optstring none args
  | none, arg :: args =>
    match arg with
    | ['-', '-'] => False
    | '-' :: c :: cs => OptionsOnly optstring (optCluster optstring (c :: cs)).2 args
    | _ => False

section

variable {optstring : CStr}

theorem optionLike_cases (arg : CStr) : OptionLike arg = false ∨ arg = ['-', '-'] ∨
    ∃ c cs, arg = '-' :: c :: cs ∧ (c = '-' → cs = [] → False) := by
  unfold OptionLike
  split
  · rename_i c cs
    by_cases h : c = '-' ∧ cs = []
    · exact .inr (.inl (by rw [h.1, h.2]))
    · exact .inr (.inr ⟨c, cs, rfl, fun hc hcs => h ⟨hc, hcs⟩⟩)
  · exact .inl rfl

theorem not_cluster {arg : CStr} (h : OptionLike arg = false) (c : Char) (cs : CStr) :
    arg ≠ '-' :: c :: cs := by
  rintro rfl
  cases h

theorem getopt_cons {arg : CStr} (h : OptionLike arg = false) (args : List CStr) :
    getopt optstring (arg :: args) = getopt optstring args := by
  rw [getopt, getoptFrom, getopt]
  · exact not_cluster h _ _
  · exact not_cluster h

theorem operands_cons {arg : CStr} (h : OptionLike arg = false) (args : List CStr) :
    operands optstring (arg :: args) = arg :: operands optstring args := by
  rw [operands, operandsFrom, operands]
  · exact not_cluster h _ _
  · exact not_cluster h

theorem OptionsOnly.appendFrom {want : Option Char} {opts : List CStr}
    (h : OptionsOnly optstring want opts) (args : List CStr) :
    getoptFrom optstring want (opts ++ args) =
        getoptFrom optstring want opts ++ getoptFrom optstring none args ∧
      operandsFrom optstring want (opts ++ args) = operandsFrom optstring none args := by
  induction opts generalizing want with
  | nil =>
    obtain rfl : want = none := h
    exact ⟨by simp [getoptFrom], rfl⟩
  | cons arg opts ih =>
    cases want with
    | some c =>
      obtain ⟨hopts, hoperands⟩ := ih h
      simp only [List.cons_append, getoptFrom, operandsFrom, hopts, hoperands, and_self]
    | none =>
      rcases optionLike_cases arg with harg | rfl | ⟨c, cs, rfl, hne⟩
      · rw [OptionsOnly] at h
        · exact h.elim
        · exact not_cluster harg _ _
        · exact not_cluster harg
      · exact h.elim
      · rw [OptionsOnly] at h
        · obtain ⟨hopts, hoperands⟩ := ih h
          rw [List.cons_append, getoptFrom, getoptFrom, operandsFrom, hopts, hoperands,
            List.append_assoc]
          · exact ⟨rfl, rfl⟩
          all_goals exact hne
        · exact hne

/-- Options before other arguments are read first, and leave these as they are. -/
theorem OptionsOnly.append {opts : List CStr} (h : OptionsOnly optstring none opts)
    (args : List CStr) :
    getopt optstring (opts ++ args) = getopt optstring opts ++ getopt optstring args ∧
      operands optstring (opts ++ args) = operands optstring args :=
  h.appendFrom args

theorem length_operandsFrom_le (want : Option Char) (args : List CStr) :
    (operandsFrom optstring want args).length ≤ args.length := by
  induction args generalizing want with
  | nil => exact Nat.le_refl 0
  | cons arg args ih =>
    cases want with
    | some c => exact Nat.le_succ_of_le (ih none)
    | none =>
      rcases optionLike_cases arg with harg | rfl | ⟨c, cs, rfl, hne⟩
      · rw [← operands, operands_cons harg]
        exact Nat.succ_le_succ (ih none)
      · exact Nat.le_succ _
      · rw [operandsFrom]
        · exact Nat.le_succ_of_le (ih _)
        · exact hne

/-- **Only arguments that do not look like options are all left.** An option is not left, and
neither is what ends the options. -/
theorem operands_eq_self {args : List CStr} :
    operands optstring args = args ↔ ∀ arg ∈ args, OptionLike arg = false := by
  induction args with
  | nil => simp [operands, operandsFrom]
  | cons arg args ih =>
    rw [List.forall_mem_cons]
    by_cases harg : OptionLike arg = false
    · rw [operands_cons harg, List.cons_inj_right, ih]
      exact (and_iff_right harg).symm
    · refine iff_of_false (fun heq => ?_) fun h => harg h.1
      have hlen := congrArg List.length heq
      rcases optionLike_cases arg with h | rfl | ⟨c, cs, rfl, hne⟩
      · exact harg h
      · rw [operands, operandsFrom, List.length_cons] at hlen
        omega
      · rw [operands, operandsFrom, List.length_cons] at hlen
        · have hle : (operandsFrom optstring (optCluster optstring (c :: cs)).2 args).length ≤
              args.length := length_operandsFrom_le _ args
          omega
        · exact hne

theorem getopt_operands {args : List CStr} (h : ∀ arg ∈ args, OptionLike arg = false) :
    getopt optstring args = [] := by
  induction args with
  | nil => rfl
  | cons arg args ih =>
    obtain ⟨harg, hargs⟩ := List.forall_mem_cons.1 h
    rw [getopt_cons harg, ih hargs]

end

end Lprofile.Lib
