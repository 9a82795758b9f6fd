import Mathlib.Data.List.TakeWhile
import Lprofile.Utils.Count

/-!
# The parts of a pattern

`CountUtil::matchFuncs` cuts its pattern at the commas with two cursors, `cur` and
`pos`, in `size_t` arithmetic: `npos` marks the end and takes part in the
subtraction `pos - cur`. `matchLoop` is the loop as written, with what is done to a
part left open; `SimpleTest::findTargets` is the same loop around `findTarget`.

The loop makes the rounds of `patternLoop` (`matchLoop_eq`), and the parts are the
fields of the comma split without the empty field after a comma at the end
(`match_funcs_split`). The event list of the probe is cut by a different loop, which
repeats a field there (`Probe.EventString`).
-/

namespace Lprofile.Utils

open Lprofile.Lib

/-- `string::npos`. -/
def npos : Nat := 2 ^ 64 - 1

/-- The text of a pattern. A `std::string` is shorter than `npos`. -/
structure PatternText where
  chars : CStr
  size_lt : chars.length < npos
  nulFree : '\x00' ∉ chars

/-- `string::find`, as a `size_t`. -/
def findPos (s : CStr) (c : Char) (pos : Nat) : Nat := (find s c pos).getD npos

/-- `c_str()`, read back as a string. -/
def cStr (s : CStr) : CStr := s.takeWhile (· != '\x00')

section

variable {σ : Type} (call : CStr → σ → σ) (pattern : CStr)

/-- The `while (true)` loop; `call` is `matchFunc`. `none`: `substr` throws, or `fuel` rounds are
not enough. -/
def matchLoop : Nat → Nat → Nat → σ → Option σ
  | 0, _, _, _ => none
  | fuel + 1, pos, cur, s =>
    if pattern.length < cur then none
    else
      let s := call (cStr (substr pattern cur ((pos + 2 ^ 64 - cur) % 2 ^ 64))) s
      if pos = npos ∨ pattern.length ≤ (pos + 1) % 2 ^ 64 then some s
      else matchLoop fuel (findPos pattern ',' (pos + 1)) (pos + 1) s

end

/-- The loop of `matchFuncs` from its start. -/
def runMatchLoop {σ : Type} (call : CStr → σ → σ) (pattern : CStr) (fuel : Nat) (s : σ) :
    Option σ :=
  matchLoop call pattern fuel (findPos pattern ',' 0) 0 s

/-! ## The loop in plain numbers -/

theorem cStr_eq_self {s : CStr} (h : '\x00' ∉ s) : cStr s = s := by
  refine List.takeWhile_eq_self_iff.2 fun c hc => ?_
  rw [bne_iff_ne]
  rintro rfl
  exact h hc

theorem cStr_substr {pattern : CStr} (h : '\x00' ∉ pattern) (pos n : Nat) :
    cStr (substr pattern pos n) = substr pattern pos n :=
  cStr_eq_self fun hc => h (List.mem_of_mem_drop (List.mem_of_mem_take hc))

/-- With `npos` for the comma the rest of the pattern is taken. -/
theorem cStr_substr_npos (pattern : PatternText) {cur : Nat} (hcur : cur ≤ pattern.chars.length) :
    cStr (substr pattern.chars cur ((npos + 2 ^ 64 - cur) % 2 ^ 64)) = pattern.chars.drop cur := by
  have hsize := pattern.size_lt
  have hsub : (npos + 2 ^ 64 - cur) % 2 ^ 64 = npos - cur := by
    unfold npos at *
    omega
  rw [cStr_substr pattern.nulFree, hsub]
  refine List.take_of_length_le ?_
  rw [List.length_drop]
  omega

theorem matchLoop_eq {σ : Type} (call : CStr → σ → σ) (pattern : PatternText) :
    ∀ (fuel cur : Nat) (s : σ), cur ≤ pattern.chars.length → pattern.chars.length < fuel + cur →
      matchLoop call pattern.chars fuel (findPos pattern.chars ',' cur) cur s =
        some ((patternLoop pattern.chars fuel (find pattern.chars ',' cur) cur).foldl
          (fun s p => call p s) s)
  | 0, _, _, hcur, hfuel => by omega
  | fuel + 1, cur, s, hcur, hfuel => by
    have hsize := pattern.size_lt
    have hin : ¬ pattern.chars.length < cur := by omega
    unfold matchLoop findPos
    rw [if_neg hin]
    rcases hpos : find pattern.chars ',' cur with _ | pos
    · simp only [Option.getD_none, patternLoop, cStr_substr_npos pattern hcur, true_or, ↓reduceIte,
        List.foldl_cons, List.foldl_nil]
    · obtain ⟨hle, hlt⟩ := find_bounds hpos
      have hne : pos ≠ npos := by omega
      have hsub : (pos + 2 ^ 64 - cur) % 2 ^ 64 = pos - cur := by
        unfold npos at hsize
        omega
      have hsucc : (pos + 1) % 2 ^ 64 = pos + 1 := by
        unfold npos at hsize
        omega
      simp only [Option.getD_some, cStr_substr pattern.nulFree, hne, hsub, hsucc, false_or,
        patternLoop]
      by_cases hend : pattern.chars.length ≤ pos + 1
      · rw [if_pos hend, if_pos hend]
        rfl
      · rw [if_neg hend, if_neg hend]
        exact matchLoop_eq call pattern fuel (pos + 1) _ (by omega) (by omega)

/-! ## The comma split -/

/-- The parts of `rest` are its fields, but for an empty field after a comma at the end. -/
def PartsOf (rest : CStr) (parts : List CStr) : Prop :=
  rest.splitOn ',' = parts ++ if rest.getLast? = some ',' then [[]] else []

theorem partsOf_single {rest : CStr} (h : ',' ∉ rest) : PartsOf rest [rest] := by
  have hlast : rest.getLast? ≠ some ',' := fun e => h (List.mem_of_getLast? e)
  rw [PartsOf, if_neg hlast]
  exact List.splitOn_eq_singleton h

theorem partsOf_comma {field : CStr} (h : ',' ∉ field) : PartsOf (field ++ [',']) [field] := by
  rw [PartsOf, List.splitOn_append_cons_self_of_not_mem h, List.getLast?_concat, if_pos rfl]
  rfl

theorem PartsOf.cons {field rest : CStr} {parts : List CStr} (hno : ',' ∉ field)
    (hne : rest ≠ []) (h : PartsOf rest parts) :
    PartsOf (field ++ ',' :: rest) (field :: parts) := by
  have hlast : (field ++ ',' :: rest).getLast? = rest.getLast? := by
    rw [List.getLast?_append_of_ne_nil _ (List.cons_ne_nil _ _), List.getLast?_cons,
      List.getLast?_eq_some_getLast hne]
    rfl
  rw [PartsOf, List.splitOn_append_cons_self_of_not_mem hno, hlast, h]
  rfl

theorem partsOf_patternLoop (pattern : CStr) : ∀ (fuel cur : Nat), pattern.length < fuel + cur →
    (cur = 0 ∨ cur < pattern.length) →
      PartsOf (pattern.drop cur) (patternLoop pattern fuel (find pattern ',' cur) cur)
  | 0, cur, hfuel, hcur => by omega
  | fuel + 1, cur, hfuel, hcur => by
    rcases hpos : find pattern ',' cur with _ | pos
    · have hno : ',' ∉ pattern.drop cur :=
        List.idxOf?_eq_none_iff.1 (Option.map_eq_none_iff.1 hpos)
      exact partsOf_single hno
    · obtain ⟨hle, hlt⟩ := find_bounds hpos
      obtain ⟨k, hk, rfl⟩ := Option.map_eq_some_iff.1 hpos
      obtain ⟨hno, hrest⟩ := strchr_eq_some hk
      have hfield : substr pattern cur (cur + k - cur) = (pattern.drop cur).take k := by
        rw [Nat.add_sub_cancel_left]
        rfl
      have hdrop : (pattern.drop cur).drop (k + 1) = pattern.drop (cur + k + 1) := by
        rw [List.drop_drop, Nat.add_assoc]
      rw [hdrop] at hrest
      simp only [patternLoop, hfield]
      by_cases hend : pattern.length ≤ cur + k + 1
      · rw [List.drop_eq_nil_of_le hend] at hrest
        have hparts := partsOf_comma hno
        rw [if_pos hend]
        rwa [← hrest] at hparts
      · have hrec := partsOf_patternLoop pattern fuel (cur + k + 1) (by omega) (.inr (by omega))
        have hparts := hrec.cons hno (by simpa using hend)
        rw [if_neg hend]
        rwa [← hrest] at hparts

theorem partsOf_subPatterns (pattern : CStr) : PartsOf pattern (subPatterns pattern) :=
  partsOf_patternLoop pattern (pattern.length + 1) 0 (Nat.lt_succ_self _) (.inl rfl)

theorem runMatchLoop_eq {σ : Type} (call : CStr → σ → σ) (pattern : PatternText) {fuel : Nat}
    (hfuel : pattern.chars.length < fuel) (s : σ) :
    runMatchLoop call pattern.chars fuel s =
      some ((subPatterns pattern.chars).foldl (fun s p => call p s) s) := by
  have hsame : patternLoop pattern.chars fuel (find pattern.chars ',' 0) 0 =
      subPatterns pattern.chars :=
    patternLoop_fuel hfuel (Nat.lt_succ_self _) (by omega) (Nat.succ_pos _)
  rw [runMatchLoop, matchLoop_eq call pattern fuel 0 s (Nat.zero_le _) hfuel, hsame]

/-- The loop does what `matchFuncs` of the model says. -/
theorem runMatchLoop_matchFunc (findFunction : BPatchObject → CStr → List BPatchFunction)
    (obj : BPatchObject) (fmap : FuncMap) (c : CountUtil) (pattern : PatternText) {fuel : Nat}
    (hfuel : pattern.chars.length < fuel) :
    runMatchLoop (matchFunc findFunction obj fmap) pattern.chars fuel c =
      some (matchFuncs findFunction obj fmap pattern.chars c) :=
  runMatchLoop_eq _ pattern hfuel c

/-- **The loop ends, and calls `matchFunc` on the fields of the comma split in order**, but for the
empty field after a comma at the end. -/
theorem match_funcs_split (findFunction : BPatchObject → CStr → List BPatchFunction)
    (obj : BPatchObject) (fmap : FuncMap) (c : CountUtil) (pattern : PatternText) :
    ∃ calls, pattern.chars.splitOn ',' =
        calls ++ (if pattern.chars.getLast? = some ',' then [[]] else []) ∧
      ∀ fuel, pattern.chars.length < fuel →
        runMatchLoop (fun p calls => calls ++ [p]) pattern.chars fuel [] = some calls ∧
        runMatchLoop (matchFunc findFunction obj fmap) pattern.chars fuel c =
          some (calls.foldl (fun c p => matchFunc findFunction obj fmap p c) c) := by
  refine ⟨subPatterns pattern.chars, partsOf_subPatterns _, fun fuel hfuel => ⟨?_, ?_⟩⟩
  · rw [runMatchLoop_eq _ pattern hfuel, List.foldl_append_eq_append, ← List.flatMap_def,
      List.flatMap_singleton', List.nil_append]
  · exact runMatchLoop_matchFunc findFunction obj fmap c pattern hfuel

/-- Commas at both ends and two in a row. -/
theorem match_funcs_split_commas :
    runMatchLoop (fun p calls => calls ++ [p]) ",main,,foo,".toList 12 [] =
      some ["".toList, "main".toList, "".toList, "foo".toList] := by
  obtain ⟨calls, hsplit, hrun⟩ := match_funcs_split (fun o _ => o.functions) mainObj
    (FuncMap.ofPath mainObj.pathName false) (.new patternAll)
    ⟨",main,,foo,".toList, by decide, by decide⟩
  have hcalls : ["".toList, "main".toList, "".toList, "foo".toList] ++ [[]] = calls ++ [[]] :=
    hsplit
  rw [(hrun 12 (by decide)).1, List.append_cancel_right hcalls]

end Lprofile.Utils
