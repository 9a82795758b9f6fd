import Mathlib.Algebra.Ring.Nat
import Mathlib.Data.List.TakeWhile
import Lprofile.Utils.Count

/-!
# The offset of the thread id

`lprobe_thread_init` reads the tid of a new thread at `tid_offset` in its
`struct pthread`. `findTIDOffset` finds the offset in the debug information of
libpthread. It adds up the sizes of the fields before `tid`, although each field
knows its own offset; and when there is no such field, it returns the sum of all
sizes, by the same exit.

So the offset is right exactly when there is no padding before `tid`
(`tid_offset_iff`).
-/

namespace Lprofile.Utils

open Lprofile.Lib Lprofile.Probe

/-- `BPatch_field`: `size` is the size of its type. -/
structure BPatchField where
  name : CStr
  size : Nat
  offset : Nat

/-- `BPatch_type`; `getComponents` may return NULL. -/
structure BPatchType where
  components : Option (List BPatchField)

structure BPatchImage where
  objects : List BPatchObject
  findType : CStr → Option BPatchType

def libpthreadName : CStr := "libpthread".toList

/-- The loop over the fields: the offset so far, an `uint32_t`. -/
def tidLoop : List BPatchField → Nat → Nat
  | [], offset => offset
  | field :: fields, offset =>
    if strncmpEq 4 field.name "tid".toList then offset
    else tidLoop fields ((offset + field.size) % 2 ^ 32)

def findTIDOffset (image : BPatchImage) : Nat :=
  match image.objects.find? fun obj => decide (libpthreadName <+: obj.name) with
  | none => uintMax
  | some _ =>
    match image.findType "pthread".toList with
    | none => uintMax
    | some type =>
      match type.components with
      | some fields => tidLoop fields 0
      | none => uintMax

/-- What Dyninst finds for `wrapPthreadFunc`: the variable `tid_offset` of the probe library,
`pthread_create`, its wrapper and hook symbol; and whether it can wrap. -/
structure PthreadEnv where
  tidVariable : Bool
  original : Bool
  wrapper : Bool
  hookSymbol : Bool
  wrapDynFunction : Bool

/-- `wrapFunction("pthread_create", func_tinit)`. -/
def wrapFunction (env : PthreadEnv) : Bool :=
  if !env.original then false
  else if !env.wrapper then false
  else if !env.hookSymbol then false
  else env.wrapDynFunction

/-- The result, the value written to `tid_offset`, and whether `pthread_create` is wrapped. -/
structure PthreadWrap where
  ret : Bool
  tidOffset : Option Nat
  wrapped : Bool
  deriving DecidableEq

def wrapPthreadFunc (image : BPatchImage) (env : PthreadEnv) : PthreadWrap :=
  let offset := findTIDOffset image
  if offset = uintMax then ⟨true, none, false⟩
  else if !env.tidVariable then ⟨false, none, false⟩
  else if !wrapFunction env then ⟨false, some offset, false⟩
  else ⟨true, some offset, true⟩

/-! ## Layouts -/

def isTid (field : BPatchField) : Bool := field.name = "tid".toList

/-- The fields are in order from `pos` on and do not overlap. -/
def Ordered : Nat → List BPatchField → Prop
  | _, [] => True
  | pos, field :: fields => pos ≤ field.offset ∧ Ordered (field.offset + field.size) fields

/-- There is no gap between the fields. -/
def Contiguous : Nat → List BPatchField → Prop
  | _, [] => True
  | pos, field :: fields => field.offset = pos ∧ Contiguous (field.offset + field.size) fields

/-- A struct; `getOffset` is an `int`. -/
structure Layout (fields : List BPatchField) : Prop where
  ordered : Ordered 0 fields
  int : ∀ field ∈ fields, field.offset < 2 ^ 31

/-- The image has libpthread, with this `struct pthread`. -/
structure HasPthread (image : BPatchImage) (fields : List BPatchField) : Prop where
  lib : ∃ obj ∈ image.objects, libpthreadName <+: obj.name
  type : image.findType "pthread".toList = some ⟨some fields⟩
  layout : Layout fields

/-- The offset of `tid` is found; and nothing is wrapped when there is none. -/
def FindsTid (image : BPatchImage) (fields : List BPatchField) : Prop :=
  match fields.find? isTid with
  | some field => findTIDOffset image = field.offset
  | none => findTIDOffset image = uintMax ∧ ∀ env, (wrapPthreadFunc image env).wrapped = false

/-- There is no padding up to `tid`; or there is no `tid`, and the sizes happen to add up to
`UINT32_MAX`. -/
def NoPadding (fields : List BPatchField) : Prop :=
  match fields.find? isTid with
  | some field => Contiguous 0 (fields.takeWhile (!isTid ·) ++ [field])
  | none => (fields.map (·.size)).sum % 2 ^ 32 = uintMax

/-! ## The loop -/

theorem tidLoop_eq (fields : List BPatchField) {offset : Nat} (h : offset < 2 ^ 32) :
    tidLoop fields offset =
      (offset + ((fields.takeWhile (!isTid ·)).map (·.size)).sum) % 2 ^ 32 := by
  induction fields generalizing offset with
  | nil => exact (Nat.mod_eq_of_lt h).symm
  | cons field fields ih =>
    have hname : strncmpEq 4 field.name "tid".toList = isTid field := by
      rw [Bool.eq_iff_iff, strncmpEq_iff (by decide), isTid, decide_eq_true_eq]
    rw [tidLoop, hname]
    cases htid : isTid field with
    | true =>
      rw [if_pos rfl, List.takeWhile_cons_of_neg (by simp [htid])]
      exact (Nat.mod_eq_of_lt h).symm
    | false =>
      rw [if_neg (by decide), ih (Nat.mod_lt _ (by decide)),
        List.takeWhile_cons_of_pos (by simp [htid]), List.map_cons, List.sum_cons, Nat.mod_add_mod,
        Nat.add_assoc]

/-- The sizes before a field add up to its offset at most, and to all of it without padding. -/
theorem Ordered.sum_sizes {pos : Nat} {pre post : List BPatchField} {field : BPatchField}
    (h : Ordered pos (pre ++ field :: post)) :
    pos + (pre.map (·.size)).sum ≤ field.offset ∧
      (pos + (pre.map (·.size)).sum = field.offset ↔ Contiguous pos (pre ++ [field])) := by
  induction pre generalizing pos with
  | nil =>
    obtain ⟨hle, -⟩ := h
    refine ⟨hle, fun e => ⟨e.symm, trivial⟩, fun hc => hc.1.symm⟩
  | cons first pre ih =>
    obtain ⟨hle, hrest⟩ := h
    obtain ⟨hsum, hiff⟩ := ih hrest
    simp only [List.map_cons, List.sum_cons, List.cons_append, Contiguous, ← hiff]
    constructor
    · omega
    · omega

theorem findTIDOffset_eq {image : BPatchImage} {fields : List BPatchField}
    (h : HasPthread image fields) :
    findTIDOffset image = ((fields.takeWhile (!isTid ·)).map (·.size)).sum % 2 ^ 32 := by
  obtain ⟨obj, hobj, hname⟩ := h.lib
  have hfind : (image.objects.find? fun obj => decide (libpthreadName <+: obj.name)).isSome :=
    List.find?_isSome.2 ⟨obj, hobj, by simpa using hname⟩
  obtain ⟨obj', hobj'⟩ := Option.isSome_iff_exists.1 hfind
  simp only [findTIDOffset, hobj', h.type]
  rw [tidLoop_eq fields (by decide), Nat.zero_add]

theorem wrapPthreadFunc_of_uintMax {image : BPatchImage} (h : findTIDOffset image = uintMax)
    (env : PthreadEnv) : (wrapPthreadFunc image env).wrapped = false := by
  simp only [wrapPthreadFunc, h, ↓reduceIte]

/-- **The offset of `tid` is found exactly when there is no padding before it.** -/
theorem tid_offset_iff (image : BPatchImage) (fields : List BPatchField)
    (h : HasPthread image fields) : FindsTid image fields ↔ NoPadding fields := by
  have hoffset := findTIDOffset_eq h
  unfold FindsTid NoPadding
  cases hfind : fields.find? isTid with
  | none =>
    have hall : fields.takeWhile (!isTid ·) = fields := by
      refine List.takeWhile_eq_self_iff.2 fun field hf => ?_
      simpa using List.find?_eq_none.1 hfind field hf
    rw [hall] at hoffset
    simp only [← hoffset]
    exact and_iff_left_of_imp wrapPthreadFunc_of_uintMax
  | some field =>
    obtain ⟨htid, pre, post, rfl, hpre⟩ := List.find?_eq_some_iff_append.1 hfind
    have hbefore : (pre ++ field :: post).takeWhile (!isTid ·) = pre := by
      rw [List.takeWhile_append_of_pos fun g hg => hpre g hg,
        List.takeWhile_cons_of_neg (by simp [htid]), List.append_nil]
    have hint := h.layout.int field (by simp)
    obtain ⟨hle, hiff⟩ := h.layout.ordered.sum_sizes
    rw [Nat.zero_add] at hle hiff
    rw [hbefore] at hoffset ⊢
    rw [hoffset, Nat.mod_eq_of_lt (by omega)]
    exact hiff

/-- An image with libpthread and this `struct pthread`. -/
def pthreadImage (fields : List BPatchField) : BPatchImage where
  objects := [⟨0, "prog".toList, "/a/prog".toList, false, []⟩,
    ⟨1, "libpthread.so.0".toList, "/lib64/libpthread.so.0".toList, true, []⟩]
  findType name := if name = "pthread".toList then some ⟨some fields⟩ else none

theorem hasPthread_pthreadImage {fields : List BPatchField} (h : Layout fields) :
    HasPthread (pthreadImage fields) fields :=
  ⟨⟨_, List.mem_cons_of_mem _ List.mem_cons_self, by decide⟩,
    by simp only [pthreadImage, ↓reduceIte], h⟩

/-- A header, a list and the tid, one right after the other. -/
def denseFields : List BPatchField :=
  [⟨"header".toList, 704, 0⟩, ⟨"list".toList, 16, 704⟩, ⟨"tid".toList, 4, 720⟩]

theorem layout_denseFields : Layout denseFields :=
  ⟨⟨by decide, by decide, by decide, trivial⟩, by decide⟩

theorem tid_offset_iff_dense :
    FindsTid (pthreadImage denseFields) denseFields ∧ NoPadding denseFields := by
  have hpad : NoPadding denseFields := ⟨rfl, rfl, rfl, trivial⟩
  have h := hasPthread_pthreadImage layout_denseFields
  exact ⟨(tid_offset_iff (pthreadImage denseFields) denseFields h).2 hpad, hpad⟩

/-- Four bytes of padding before a pointer. -/
def paddedFields : List BPatchField :=
  [⟨"flags".toList, 4, 0⟩, ⟨"list".toList, 8, 8⟩, ⟨"tid".toList, 4, 16⟩]

/-- The offset of `tid` is 16, and 12 is returned; without `tid`, 4 is returned, and
`pthread_create` is wrapped. -/
theorem padding_lost :
    HasPthread (pthreadImage paddedFields) paddedFields ∧
      findTIDOffset (pthreadImage paddedFields) = 12 ∧
      ¬ FindsTid (pthreadImage paddedFields) paddedFields ∧
      (paddedFields.take 1).find? isTid = none ∧
      findTIDOffset (pthreadImage (paddedFields.take 1)) = 4 ∧
      (wrapPthreadFunc (pthreadImage (paddedFields.take 1))
        ⟨true, true, true, true, true⟩).wrapped = true := by
  have hoffset : findTIDOffset (pthreadImage paddedFields) = 12 := by decide
  refine ⟨hasPthread_pthreadImage ⟨⟨by decide, by decide, by decide, trivial⟩, by decide⟩, hoffset,
    fun h => ?_, by decide, by decide, by decide⟩
  have h16 : findTIDOffset (pthreadImage paddedFields) = 16 := h
  rw [hoffset] at h16
  cases h16

end Lprofile.Utils
