import Lprofile.Utils.Load

/-!
# Sequences of loads

A map can be loaded any number of times, from its cache file and from the
procedures of its ELF (`LoadOp`). Each load finds the files as they are by then,
with the skip list and the environment of its own time.

`pointAt m ops d k` is the map in load `d` after `k` rounds of its loop. From one
point to the next at most one name is added (`LoadOp.rounds_succ`), at the end of
`funcs`, so what is numbered keeps its number (`loads_ok`).
-/

namespace Lprofile.Utils

open Lprofile.Lib Lprofile.Probe

/-- A load from the cache file, or from the procedures of the ELF. -/
inductive LoadOp where
  | cache (skip : List CStr) (env : LoadEnv) (fs : Fs)
  | binary (procedures : CStr → List BPatchFunction) (skip : List CStr) (env : LoadEnv) (fs : Fs)

namespace LoadOp

def skip : LoadOp → List CStr
  | .cache skip _ _ => skip
  | .binary _ skip _ _ => skip

/-- The source: the lines of the cache file, in which there is no NUL, or the names of the
procedures. -/
def names (m : FuncMap) : LoadOp → List CStr
  | .cache _ _ fs =>
    match fs.files (cachefile m) with
    | none => []
    | some file => cachedNames file.text
  | .binary procedures _ _ fs =>
    match fs.files m.elfPath with
    | none => []
    | some elf => (procedures elf.text).map (·.name)

def run (m : FuncMap) : LoadOp → Bool × FuncMap
  | .cache skip env fs => loadFromCache skip env m fs
  | .binary procedures skip env fs =>
    let r := loadFromELF procedures skip env m fs
    (r.1, r.2.1)

/-- The map after `k` rounds of the loop, and whether the loop was reached and goes on. -/
def rounds (m : FuncMap) (k : Nat) : LoadOp → Bool × FuncMap
  | .cache skip env fs =>
    match fs.files (cachefile m) with
    | none => (false, m)
    | some file =>
      if env.openCache then
        (true, addFunctions skip m ((cachedNames file.text).take k))
      else (false, m)
  | .binary procedures skip env fs =>
    match fs.files m.elfPath with
    | none => (false, m)
    | some elf =>
      if !env.openBinary || !env.getProcedures then (false, m)
      else
        let r := addProcedures skip env ((procedures elf.text).take k) m fs
        (r.1, r.2.1)

end LoadOp

/-- The map in load `d` after `k` rounds of its loop; after the last load, the map it left. -/
def pointAt : FuncMap → List LoadOp → Nat → Nat → FuncMap
  | m, [], _, _ => m
  | m, op :: _, 0, k => (op.rounds m k).2
  | m, op :: ops, d + 1, k => pointAt (op.run m).2 ops d k

/-- `funcs` and `func_indices` are inverse to each other. -/
structure Bijective (m : FuncMap) : Prop where
  nodup : m.funcs.Nodup
  keys : ∀ n, (m.funcIndices n).isSome ↔ n ∈ m.funcs
  ids : ∀ n i, i ≠ uintMax → (getFunctionID m n = i ↔ m.funcs[i]? = some n)
  others : ∀ n, n ∉ m.funcs → getFunctionID m n = uintMax

/-- What a sequence of loads of `m` promises. -/
structure LoadsOk (m : FuncMap) (ops : List LoadOp) : Prop where
  bijective : ∀ d k, Bijective (pointAt m ops d k)
  /-- what a load adds is not in its skip list -/
  filtered : ∀ d op, ops[d]? = some op → ∀ k, ∀ n ∈ (pointAt m ops d k).funcs,
    n ∉ (pointAt m ops d 0).funcs → n ∉ op.skip
  /-- a number `getFunctionID` gave stays -/
  stable : ∀ d k d' k', d < d' ∨ (d = d' ∧ k ≤ k') → ∀ n,
    getFunctionID (pointAt m ops d k) n ≠ uintMax →
      getFunctionID (pointAt m ops d' k') n = getFunctionID (pointAt m ops d k) n
  /-- a number `addFunction` gave is the one `getFunctionID` gives from then on -/
  returned : ∀ d op, ops[d]? = some op → ∀ k n, (op.rounds (pointAt m ops d 0) k).1 = true →
    (op.names m)[k]? = some n → (addFunction op.skip (pointAt m ops d k) n).1 ≠ uintMax →
    ∀ d' k', d < d' ∨ (d = d' ∧ k + 1 ≤ k') →
      getFunctionID (pointAt m ops d' k') n = (addFunction op.skip (pointAt m ops d k) n).1
  /-- a source that was loaded adds nothing when it is loaded again -/
  reload : ∀ d op, ops[d]? = some op → (op.run (pointAt m ops d 0)).1 = true →
    ∀ d' op', d < d' → ops[d']? = some op' → op'.names m = op.names m → op.skip ⊆ op'.skip →
      (∀ k, SameFuncs (pointAt m ops d' 0) (pointAt m ops d' k)) ∧
        SameFuncs (pointAt m ops d' 0) (pointAt m ops (d' + 1) 0)

/-! ## One round -/

theorem addFunctions_take_succ (skip : List CStr) (m : FuncMap) {names : List CStr} {k : Nat}
    (hk : k < names.length) : addFunctions skip m (names.take (k + 1)) =
      (addFunction skip (addFunctions skip m (names.take k)) names[k]).2 := by
  rw [List.take_succ_eq_append_getElem hk]
  exact List.foldl_append

theorem addProcedures_take_succ (skip : List CStr) (env : LoadEnv) {procs : List BPatchFunction}
    {k : Nat} (hk : k < procs.length) (m : FuncMap) (fs : Fs) :
    addProcedures skip env (procs.take (k + 1)) m fs =
      let r := addProcedures skip env (procs.take k) m fs
      if r.1 then addProcedure skip env procs[k] r.2.1 r.2.2 else r := by
  have hone : ∀ m fs, addProcedures skip env [procs[k]] m fs =
      addProcedure skip env procs[k] m fs := by
    intro m fs
    rw [addProcedures_cons]
    dsimp only
    split
    · rename_i h
      exact Prod.ext h.symm rfl
    · rfl
  rw [List.take_succ_eq_append_getElem hk, addProcedures_append]
  simp only [hone]

namespace LoadOp

theorem rounds_zero (op : LoadOp) (m : FuncMap) : (op.rounds m 0).2 = m := by
  cases op with
  | cache skip env fs =>
    unfold rounds
    dsimp only
    split
    · rfl
    · split <;> rfl
  | binary procedures skip env fs =>
    unfold rounds
    dsimp only
    split
    · rfl
    · split <;> rfl

/-- One more round adds the next name, unless the loop has stopped or is at its end. -/
theorem rounds_succ (op : LoadOp) (m : FuncMap) (k : Nat) :
    (∃ n, (op.rounds m k).1 = true ∧ (op.names m)[k]? = some n ∧
      SameFuncs (addFunction op.skip (op.rounds m k).2 n).2 (op.rounds m (k + 1)).2) ∨
    (((op.rounds m k).1 = false ∨ (op.names m).length ≤ k) ∧
      op.rounds m (k + 1) = op.rounds m k) := by
  cases op with
  | cache skip env fs =>
    unfold rounds names LoadOp.skip
    dsimp only
    cases fs.files (cachefile m) with
    | none => exact .inr ⟨.inl rfl, rfl⟩
    | some file =>
      dsimp only
      generalize cachedNames file.text = names
      split
      · by_cases hk : k < names.length
        · refine .inl ⟨names[k], rfl, List.getElem?_eq_getElem hk, ?_⟩
          rw [addFunctions_take_succ skip m hk]
          exact ⟨rfl, rfl, rfl⟩
        · rw [List.take_of_length_le (by omega), List.take_of_length_le (by omega)]
          exact .inr ⟨.inr (by omega), rfl⟩
      · exact .inr ⟨.inl rfl, rfl⟩
  | binary procedures skip env fs =>
    unfold rounds names LoadOp.skip
    dsimp only
    cases fs.files m.elfPath with
    | none => exact .inr ⟨.inl rfl, rfl⟩
    | some elf =>
      dsimp only
      generalize procedures elf.text = procs
      split
      · exact .inr ⟨.inl rfl, rfl⟩
      · by_cases hk : k < procs.length
        · rw [addProcedures_take_succ skip env hk]
          dsimp only
          generalize addProcedures skip env (procs.take k) m fs = r
          cases hr : r.1 with
          | false => exact .inr ⟨.inl rfl, by simp [hr]⟩
          | true =>
            refine .inl ⟨procs[k].name, rfl, by simp [hk], ?_⟩
            rw [if_pos rfl]
            exact (addProcedure_spec skip env procs[k] r.2.1 r.2.2).1
        · rw [List.take_of_length_le (by omega), List.take_of_length_le (by omega)]
          refine .inr ⟨.inr ?_, rfl⟩
          rw [List.length_map]
          omega

theorem rounds_of_length_le (op : LoadOp) (m : FuncMap) {k : Nat} (hk : (op.names m).length ≤ k) :
    op.rounds m k = op.rounds m (op.names m).length := by
  induction k, hk using Nat.le_induction with
  | base => rfl
  | succ k hk ih =>
    rcases op.rounds_succ m k with ⟨n, -, hn, -⟩ | ⟨-, h⟩
    · rw [List.getElem?_eq_none hk] at hn
      cases hn
    · rw [h, ih]

/-- After its loop a load leaves the functions alone, and it succeeds only if the loop came to its
end. -/
theorem run_rounds (op : LoadOp) (m : FuncMap) :
    SameFuncs (op.rounds m (op.names m).length).2 (op.run m).2 ∧
      ((op.run m).1 = true → (op.rounds m (op.names m).length).1 = true) := by
  cases op with
  | cache skip env fs =>
    unfold rounds names run loadFromCache
    dsimp only
    cases fs.files (cachefile m) with
    | none => exact ⟨⟨rfl, rfl, rfl⟩, id⟩
    | some file =>
      dsimp only
      rw [List.take_length]
      split
      · exact ⟨⟨rfl, rfl, rfl⟩, id⟩
      · exact ⟨⟨rfl, rfl, rfl⟩, id⟩
  | binary procedures skip env fs =>
    unfold rounds names run
    dsimp only
    rcases loadFromELF_cases procedures skip env m fs with
      ⟨hload, hno | hno⟩ | ⟨image, himage, hopen, hload⟩
    · rw [hload, hno]
      exact ⟨⟨rfl, rfl, rfl⟩, id⟩
    · rw [hload, hno]
      split
      · exact ⟨⟨rfl, rfl, rfl⟩, id⟩
      · exact ⟨⟨rfl, rfl, rfl⟩, id⟩
    · rw [hload, himage, hopen]
      simp only [List.length_map, List.take_length, Bool.false_eq_true, ↓reduceIte]
      exact ⟨(finishELF_spec env image.text _).1, finishELF_ok⟩

end LoadOp

/-! ## Growth -/

/-- `m'` is `m` with some functions appended. -/
structure Grown (m m' : FuncMap) : Prop where
  numbered : m'.Numbered
  funcs : m.funcs <+: m'.funcs

theorem Grown.trans {m m' m'' : FuncMap} (h : Grown m m') (h' : Grown m' m'') : Grown m m'' :=
  ⟨h'.numbered, h.funcs.trans h'.funcs⟩

theorem Grown.refl {m : FuncMap} (hm : m.Numbered) : Grown m m := ⟨hm, List.prefix_rfl⟩

theorem SameFuncs.grown {m m' : FuncMap} (h : SameFuncs m m') (hm : m.Numbered) : Grown m m' :=
  ⟨h.numbered hm, by rw [h.funcs]⟩

theorem addFunction_grown {m : FuncMap} (hm : m.Numbered) (skip : List CStr) (n : CStr) :
    Grown m (addFunction skip m n).2 := by
  refine ⟨addFunction_numbered hm skip n, ?_⟩
  rw [addFunction_funcs hm]
  have h : m.funcs <+: insertAll skip m.funcs [n] := prefix_insertAll
  exact h

/-- What has a number keeps it. -/
theorem Grown.getFunctionID {m m' : FuncMap} (h : Grown m m') (hm : m.Numbered) {n : CStr}
    (hn : n ∈ m.funcs) : Utils.getFunctionID m' n = Utils.getFunctionID m n := by
  obtain ⟨rest, hrest⟩ := h.funcs
  rw [h.numbered.getFunctionID_eq, hm.getFunctionID_eq, if_pos hn, if_pos (h.funcs.subset hn),
    ← hrest, List.idxOf_append_of_mem hn]

theorem mem_funcs_of_getFunctionID {m : FuncMap} (hm : m.Numbered) {n : CStr}
    (h : getFunctionID m n ≠ uintMax) : n ∈ m.funcs := by
  rw [hm.getFunctionID_eq] at h
  by_contra hn
  exact h (if_neg hn)

theorem LoadOp.rounds_grown {m : FuncMap} (hm : m.Numbered) (op : LoadOp) (k : Nat) :
    ∀ j ≤ k, Grown (op.rounds m j).2 (op.rounds m k).2 := by
  have hone : ∀ k, (op.rounds m k).2.Numbered →
      Grown (op.rounds m k).2 (op.rounds m (k + 1)).2 := by
    intro k hk
    rcases op.rounds_succ m k with ⟨n, -, -, hs⟩ | ⟨-, h⟩
    · exact (addFunction_grown hk op.skip n).trans (hs.grown (addFunction_numbered hk op.skip n))
    · rw [h]
      exact .refl hk
  have h0 : (op.rounds m 0).2.Numbered := by rwa [op.rounds_zero]
  induction k with
  | zero =>
    intro j hj
    rw [Nat.le_zero.1 hj]
    exact .refl h0
  | succ k ih =>
    intro j hj
    have hk := (ih 0 (Nat.zero_le k)).numbered
    rcases Nat.lt_or_ge k j with hlt | hle
    · have hj : j = k + 1 := by omega
      rw [hj]
      exact .refl (hone k hk).numbered
    · exact (ih j hle).trans (hone k hk)

theorem LoadOp.run_grown {m : FuncMap} (hm : m.Numbered) (op : LoadOp) (k : Nat) :
    Grown (op.rounds m k).2 (op.run m).2 := by
  obtain ⟨hsame, -⟩ := op.run_rounds m
  have hn := (op.rounds_grown hm (op.names m).length 0 (Nat.zero_le _)).numbered
  refine Grown.trans ?_ (hsame.grown hn)
  rcases Nat.le_total k (op.names m).length with hle | hle
  · exact op.rounds_grown hm _ k hle
  · rw [op.rounds_of_length_le m hle]
    exact .refl hn

theorem LoadOp.run_numbered {m : FuncMap} (hm : m.Numbered) (op : LoadOp) :
    (op.run m).2.Numbered :=
  (op.run_grown hm 0).numbered

/-- From the start to any point. -/
theorem grown_pointAt {m : FuncMap} (hm : m.Numbered) (ops : List LoadOp) (d k : Nat) :
    Grown m (pointAt m ops d k) := by
  induction ops generalizing m d with
  | nil => exact .refl hm
  | cons op ops ih =>
    have hstart : ∀ m', Grown (op.rounds m 0).2 m' → Grown m m' := by
      rw [op.rounds_zero]
      exact fun _ => id
    cases d with
    | zero => exact hstart _ (op.rounds_grown hm k 0 (Nat.zero_le k))
    | succ d => exact hstart _ ((op.run_grown hm 0).trans (ih (op.run_numbered hm) d))

/-- From any point to a later one. -/
theorem pointAt_grown {m : FuncMap} (hm : m.Numbered) (ops : List LoadOp) {d k d' k' : Nat}
    (h : d < d' ∨ (d = d' ∧ k ≤ k')) : Grown (pointAt m ops d k) (pointAt m ops d' k') := by
  induction ops generalizing m d d' with
  | nil => exact .refl hm
  | cons op ops ih =>
    cases d' with
    | zero =>
      obtain ⟨rfl, hk⟩ : d = 0 ∧ k ≤ k' := by omega
      exact op.rounds_grown hm k' k hk
    | succ d' =>
      cases d with
      | zero => exact (op.run_grown hm k).trans (grown_pointAt (op.run_numbered hm) ops d' k')
      | succ d => exact ih (op.run_numbered hm) (by omega)

/-! ## The sources -/

theorem generateWrapper_elfPath (env : LoadEnv) (m : FuncMap) (func : BPatchFunction) (index : Nat)
    (fs : Fs) : (generateWrapper env m func index fs).2.1.elfPath = m.elfPath := by
  unfold generateWrapper
  dsimp only
  split <;> rfl

theorem addProcedures_elfPath (skip : List CStr) (env : LoadEnv) (procs : List BPatchFunction)
    (m : FuncMap) (fs : Fs) : (addProcedures skip env procs m fs).2.1.elfPath = m.elfPath := by
  have hone : ∀ func m fs, (addProcedure skip env func m fs).2.1.elfPath = m.elfPath := by
    intro func m fs
    have hframe := (addFunction_frame skip m func.name).2.1
    unfold addProcedure
    dsimp only
    split
    · exact (generateWrapper_elfPath ..).trans hframe
    · exact hframe
  induction procs generalizing m fs with
  | nil => rfl
  | cons func procs ih =>
    rw [addProcedures_cons]
    dsimp only
    split
    · exact (ih _ _).trans (hone func m fs)
    · exact hone func m fs

theorem compileWrapper_elfPath (env : LoadEnv) (m : FuncMap) (fs : Fs) :
    (compileWrapper env m fs).2.1.elfPath = m.elfPath := by
  unfold compileWrapper
  split
  · rfl
  · dsimp only
    split <;> rfl

theorem finishELF_elfPath (env : LoadEnv) (image : CStr) (r : Bool × FuncMap × Fs) :
    (finishELF env image r).2.1.elfPath = r.2.1.elfPath := by
  obtain ⟨c, hc⟩ : ∃ c, c = (if r.2.1.isWrap && 0 < r.2.1.funcs.length then
    compileWrapper env r.2.1 r.2.2 else r) := ⟨_, rfl⟩
  have hpath : c.2.1.elfPath = r.2.1.elfPath := by
    rw [hc]
    split
    · exact compileWrapper_elfPath ..
    · rfl
  unfold finishELF
  rw [← hc]
  dsimp only
  split
  · rfl
  · split
    · exact hpath
    · exact hpath

theorem addFunctions_elfPath (skip : List CStr) (m : FuncMap) (names : List CStr) :
    (addFunctions skip m names).elfPath = m.elfPath := by
  induction names generalizing m with
  | nil => rfl
  | cons n names ih => exact (ih _).trans (addFunction_frame skip m n).2.1

namespace LoadOp

theorem run_elfPath (op : LoadOp) (m : FuncMap) : (op.run m).2.elfPath = m.elfPath := by
  cases op with
  | cache skip env fs =>
    unfold run loadFromCache
    dsimp only
    split
    · rfl
    · split
      · exact addFunctions_elfPath ..
      · rfl
  | binary procedures skip env fs =>
    unfold run
    dsimp only
    rcases loadFromELF_cases procedures skip env m fs with ⟨hload, -⟩ | ⟨image, -, -, hload⟩
    · rw [hload]
    · rw [hload, finishELF_elfPath, addProcedures_elfPath]

theorem run_elfName (op : LoadOp) (m : FuncMap) : (op.run m).2.elfName = m.elfName := by
  have hrounds : ∀ k, (op.rounds m k).2.elfName = m.elfName := by
    intro k
    induction k with
    | zero => rw [op.rounds_zero]
    | succ k ih =>
      rcases op.rounds_succ m k with ⟨n, -, -, hs⟩ | ⟨-, h⟩
      · exact hs.elfName.trans ((addFunction_frame ..).1.trans ih)
      · rw [h, ih]
  exact (op.run_rounds m).1.elfName.trans (hrounds _)

/-- A load leaves the sources of the map where they are. -/
theorem names_run (op op' : LoadOp) (m : FuncMap) : op'.names (op.run m).2 = op'.names m := by
  unfold names cachefile
  rw [op.run_elfPath, op.run_elfName]

/-- A loop that has not stopped has added its names so far. -/
theorem rounds_funcs {m : FuncMap} (hm : m.Numbered) (op : LoadOp) {k : Nat}
    (h : (op.rounds m k).1 = true) :
    (op.rounds m k).2.funcs = insertAll op.skip m.funcs ((op.names m).take k) := by
  induction k with
  | zero => rw [op.rounds_zero, List.take_zero, insertAll_nil]
  | succ k ih =>
    have hn := (op.rounds_grown hm k 0 (Nat.zero_le k)).numbered
    rcases op.rounds_succ m k with ⟨n, hr, hname, hs⟩ | ⟨hend, heq⟩
    · obtain ⟨hk, rfl⟩ := List.getElem?_eq_some_iff.1 hname
      rw [hs.funcs, addFunction_funcs hn, ih hr, List.take_succ_eq_append_getElem hk,
        insertAll_append]
      rfl
    · rw [heq] at h ⊢
      rcases hend with hstop | hend
      · rw [h] at hstop
        cases hstop
      · rw [ih h, List.take_of_length_le hend, List.take_of_length_le (Nat.le_succ_of_le hend)]

/-- A load adds no name of its skip list, and none that it does not read. -/
theorem mem_rounds {m : FuncMap} (hm : m.Numbered) (op : LoadOp) (k : Nat) {n : CStr}
    (h : n ∈ (op.rounds m k).2.funcs) : n ∈ m.funcs ∨ (n ∈ op.names m ∧ n ∉ op.skip) := by
  induction k with
  | zero =>
    rw [op.rounds_zero] at h
    exact .inl h
  | succ k ih =>
    have hn := (op.rounds_grown hm k 0 (Nat.zero_le k)).numbered
    rcases op.rounds_succ m k with ⟨n', -, hname, hs⟩ | ⟨-, heq⟩
    · rw [hs.funcs, addFunction_funcs hn, mem_insertNew] at h
      rcases h with h | ⟨rfl, hskip⟩
      · exact ih h
      · exact .inr ⟨List.mem_of_getElem? hname, hskip⟩
    · rw [heq] at h
      exact ih h

end LoadOp

theorem LoadOp.length_rounds_le {m : FuncMap} (hm : m.Numbered) (op : LoadOp) (k : Nat) :
    (op.rounds m k).2.funcs.length ≤ m.funcs.length + min k (op.names m).length := by
  induction k with
  | zero =>
    rw [op.rounds_zero]
    exact Nat.le_add_right _ _
  | succ k ih =>
    have hn := (op.rounds_grown hm k 0 (Nat.zero_le k)).numbered
    rcases op.rounds_succ m k with ⟨n, -, hname, hs⟩ | ⟨-, heq⟩
    · obtain ⟨hk, -⟩ := List.getElem?_eq_some_iff.1 hname
      have hone : (insertAll op.skip (op.rounds m k).2.funcs [n]).length ≤
          (op.rounds m k).2.funcs.length + 1 := length_insertAll_le
      rw [insertAll_cons, insertAll_nil] at hone
      rw [hs.funcs, addFunction_funcs hn]
      omega
    · rw [heq]
      omega

/-! ## Points -/

section

variable {m : FuncMap} {ops : List LoadOp} {d : Nat} {op : LoadOp}

theorem pointAt_zero : pointAt m ops 0 0 = m := by
  cases ops with
  | nil => rfl
  | cons op ops => exact op.rounds_zero m

theorem pointAt_eq_rounds (hop : ops[d]? = some op) (k : Nat) :
    pointAt m ops d k = (op.rounds (pointAt m ops d 0) k).2 := by
  induction ops generalizing m d with
  | nil => cases hop
  | cons op' ops ih =>
    cases d with
    | zero =>
      cases hop
      rw [pointAt_zero]
      rfl
    | succ d => exact ih hop

theorem pointAt_succ_eq_run (hop : ops[d]? = some op) :
    pointAt m ops (d + 1) 0 = (op.run (pointAt m ops d 0)).2 := by
  induction ops generalizing m d with
  | nil => cases hop
  | cons op' ops ih =>
    cases d with
    | zero =>
      cases hop
      rw [pointAt_zero]
      exact pointAt_zero
    | succ d => exact ih hop

theorem names_pointAt (op : LoadOp) : op.names (pointAt m ops d 0) = op.names m := by
  induction ops generalizing m d with
  | nil => rfl
  | cons op' ops ih =>
    cases d with
    | zero => rw [pointAt_zero]
    | succ d => exact ih.trans (op'.names_run op m)

theorem length_pointAt_le (hm : m.Numbered) (k : Nat) :
    (pointAt m ops d k).funcs.length ≤ m.funcs.length + (ops.flatMap (·.names m)).length := by
  induction ops generalizing m d with
  | nil => exact Nat.le_add_right _ _
  | cons op ops ih =>
    rw [List.flatMap_cons, List.length_append]
    cases d with
    | zero =>
      have h := op.length_rounds_le hm k
      simp only [pointAt]
      omega
    | succ d =>
      have h := op.length_rounds_le hm (op.names m).length
      have hrun := @ih _ d (op.run_numbered hm)
      rw [(op.run_rounds m).1.funcs] at hrun
      simp only [op.names_run] at hrun
      simp only [pointAt]
      omega

end

/-! ## The map at a point -/

theorem FuncMap.Numbered.bijective {m : FuncMap} (h : m.Numbered)
    (hlen : m.funcs.length < uintMax) : Bijective m := by
  have hmax : uintMax < 2 ^ 32 := by decide
  refine ⟨h.nodup, h.isSome_iff, fun n i hi => ⟨fun he => ?_, fun he => ?_⟩, fun n hn => ?_⟩
  · have hmem : n ∈ m.funcs := mem_funcs_of_getFunctionID h (by rw [he]; exact hi)
    have hlt := List.idxOf_lt_length_of_mem hmem
    rw [h.getFunctionID_eq, if_pos hmem, Nat.mod_eq_of_lt (by omega)] at he
    rw [← he]
    exact List.getElem?_eq_some_iff.2 ⟨hlt, List.getElem_idxOf hlt⟩
  · obtain ⟨hlt, rfl⟩ := List.getElem?_eq_some_iff.1 he
    exact h.getFunctionID_getElem (by omega) hlt
  · rw [h.getFunctionID_eq, if_neg hn]

/-- The number `addFunction` returns is the one the function has. -/
theorem getFunctionID_addFunction {skip : List CStr} {m : FuncMap} {n : CStr}
    (h : (addFunction skip m n).1 ≠ uintMax) :
    getFunctionID (addFunction skip m n).2 n = (addFunction skip m n).1 := by
  unfold addFunction at h ⊢
  split
  · rename_i h1
    rw [if_pos h1] at h
    exact absurd rfl h
  · rename_i h1
    rw [if_neg h1] at h
    split
    · rename_i h2
      rw [if_pos h2] at h
      exact absurd rfl h
    · simp [getFunctionID]

theorem SameFuncs.trans {m m' m'' : FuncMap} (h : SameFuncs m m') (h' : SameFuncs m' m'') :
    SameFuncs m m'' :=
  ⟨h'.elfName.trans h.elfName, h'.funcs.trans h.funcs, h'.funcIndices.trans h.funcIndices⟩

theorem SameFuncs.getFunctionID {m m' : FuncMap} (h : SameFuncs m m') (n : CStr) :
    Utils.getFunctionID m' n = Utils.getFunctionID m n := by
  rw [Utils.getFunctionID, h.funcIndices, Utils.getFunctionID]

theorem addFunction_of_present {skip : List CStr} {m : FuncMap} (hm : m.Numbered) {n : CStr}
    (h : n ∈ m.funcs ∨ n ∈ skip) : (addFunction skip m n).2 = m := by
  unfold addFunction
  split
  · rfl
  · rename_i h1
    rw [if_pos (h.resolve_left fun hn => h1 ((hm.isSome_iff n).2 hn))]

/-- A load that reads nothing new changes nothing. -/
theorem LoadOp.rounds_of_present {m : FuncMap} (hm : m.Numbered) (op : LoadOp)
    (h : ∀ n ∈ op.names m, n ∈ m.funcs ∨ n ∈ op.skip) (k : Nat) :
    SameFuncs m (op.rounds m k).2 := by
  induction k with
  | zero =>
    rw [op.rounds_zero]
    exact ⟨rfl, rfl, rfl⟩
  | succ k ih =>
    rcases op.rounds_succ m k with ⟨n, -, hname, hs⟩ | ⟨-, heq⟩
    · have hn := h n (List.mem_of_getElem? hname)
      rw [← ih.funcs] at hn
      rw [addFunction_of_present (ih.numbered hm) hn] at hs
      exact ih.trans hs
    · rw [heq]
      exact ih

/-- A load that succeeded has every name of its source, the skipped ones apart. -/
theorem LoadOp.mem_run {m : FuncMap} (hm : m.Numbered) (op : LoadOp) (hr : (op.run m).1 = true)
    {n : CStr} (hn : n ∈ op.names m) : n ∈ (op.run m).2.funcs ∨ n ∈ op.skip := by
  obtain ⟨hsame, hloop⟩ := op.run_rounds m
  by_cases hskip : n ∈ op.skip
  · exact .inr hskip
  · rw [hsame.funcs, op.rounds_funcs hm (hloop hr), List.take_length, mem_insertAll]
    exact .inl (.inr ⟨hn, hskip⟩)

theorem reload_sameFuncs {m : FuncMap} {ops : List LoadOp} {d d' : Nat} {op op' : LoadOp}
    (hm : m.Numbered) (hop : ops[d]? = some op) (hr : (op.run (pointAt m ops d 0)).1 = true)
    (hlt : d < d') (hop' : ops[d']? = some op') (hnames : op'.names m = op.names m)
    (hskip : op.skip ⊆ op'.skip) :
    (∀ k, SameFuncs (pointAt m ops d' 0) (pointAt m ops d' k)) ∧
      SameFuncs (pointAt m ops d' 0) (pointAt m ops (d' + 1) 0) := by
  have hstart := (grown_pointAt hm ops d 0).numbered
  have hstart' := (grown_pointAt hm ops d' 0).numbered
  have hlater : Grown (pointAt m ops (d + 1) 0) (pointAt m ops d' 0) :=
    pointAt_grown hm ops (by omega)
  have hsource : op.names (pointAt m ops d 0) = op.names m := names_pointAt op
  have hpresent : ∀ n ∈ op'.names (pointAt m ops d' 0),
      n ∈ (pointAt m ops d' 0).funcs ∨ n ∈ op'.skip := by
    intro n hn
    rw [names_pointAt, hnames, ← hsource] at hn
    rcases op.mem_run hstart hr hn with h | h
    · rw [← pointAt_succ_eq_run hop] at h
      exact .inl (hlater.funcs.subset h)
    · exact .inr (hskip h)
  have hrounds := op'.rounds_of_present hstart' hpresent
  refine ⟨fun k => ?_, ?_⟩
  · rw [pointAt_eq_rounds hop' k]
    exact hrounds k
  · rw [pointAt_succ_eq_run hop']
    exact (hrounds _).trans (op'.run_rounds _).1

/-- **The map is a bijection with stable numbers**, at every point of every sequence of loads. -/
theorem loads_ok (name path : CStr) (wrap : Bool) (ops : List LoadOp)
    (hcount : (ops.flatMap (·.names (FuncMap.ofName name path wrap))).length < 2 ^ 32 - 1) :
    LoadsOk (FuncMap.ofName name path wrap) ops := by
  have hm := FuncMap.numbered_ofName name path wrap
  have hempty : (FuncMap.ofName name path wrap).funcs.length = 0 := rfl
  generalize FuncMap.ofName name path wrap = m at hm hempty hcount ⊢
  have hpoint := fun d k => (grown_pointAt hm ops d k).numbered
  refine ⟨fun d k => ?_, fun d op hop k n hn hnew => ?_, fun d k d' k' hle n hn => ?_,
    fun d op hop k n hr hname hne d' k' hle => ?_,
    fun d op hop hr d' op' hlt hop' hnames hskip => ?_⟩
  · refine (hpoint d k).bijective ?_
    have hlen := @length_pointAt_le m ops d hm k
    rw [show uintMax = 2 ^ 32 - 1 from rfl]
    omega
  · rw [pointAt_eq_rounds hop k] at hn
    exact ((op.mem_rounds (hpoint d 0) k hn).resolve_left hnew).2
  · exact (pointAt_grown hm ops hle).getFunctionID (hpoint d k)
      (mem_funcs_of_getFunctionID (hpoint d k) hn)
  · -- the call is round `k`, and its number is there in the point after it
    have hnext : getFunctionID (pointAt m ops d (k + 1)) n =
        (addFunction op.skip (pointAt m ops d k) n).1 := by
      rw [← getFunctionID_addFunction hne, pointAt_eq_rounds hop k, pointAt_eq_rounds hop (k + 1)]
      rcases op.rounds_succ (pointAt m ops d 0) k with ⟨n', -, hname', hs⟩ | ⟨hend, -⟩
      · rw [names_pointAt, hname] at hname'
        cases hname'
        exact hs.getFunctionID n
      · rw [hr, names_pointAt] at hend
        have hk := (List.getElem?_eq_some_iff.1 hname).1
        simp only [Bool.true_eq_false, false_or] at hend
        omega
    rw [← hnext]
    refine (pointAt_grown hm ops hle).getFunctionID (hpoint d (k + 1)) ?_
    exact mem_funcs_of_getFunctionID (hpoint d (k + 1)) (by rw [hnext]; exact hne)
  · exact reload_sameFuncs hm hop hr hlt hop' hnames hskip

/-- An ELF with two functions, and a cache file with one of them and another. -/
def mixedFs : Fs :=
  ((Fs.empty.write "/bin/app".toList [] .elf).write (funcmapDir ++ "app".toList)
    "main\nhelper\n".toList (.cache []))

/-- A load from the ELF, one from the cache, and the ELF again. -/
def mixedLoads : List LoadOp :=
  let procedures : CStr → List BPatchFunction :=
    fun _ => [⟨"main".toList, 0, false, 0⟩, ⟨"foo".toList, 1, true, 1⟩]
  [.binary procedures [] .granting mixedFs, .cache (skiplist true) .granting mixedFs,
    .binary procedures (skiplist true) .granting mixedFs]

theorem loads_ok_mixed :
    LoadsOk (FuncMap.ofName "app".toList "/bin/app".toList false) mixedLoads ∧
      (pointAt (FuncMap.ofName "app".toList "/bin/app".toList false) mixedLoads 3 0).funcs =
        ["main".toList, "foo".toList, "helper".toList] := by
  refine ⟨loads_ok _ _ _ _ ?_, ?_⟩
  · decide +kernel
  · decide +kernel

end Lprofile.Utils
