import Lprofile.Probe.Creation
import Lprofile.Utils.FuncMap
import Lprofile.Utils.Report

/-!
# The width of the record fields

A function number goes from a map of 32-bit indices through the constant of the
probe call into the 16 bits of `func_idx`, and the position of an event into the
8 bits of `ev_idx`. `FieldsWide` says that both come back when the records of
calls are decoded, so that they tell functions and events apart; it holds as
long as the map and the list fit the fields.
-/

namespace Lprofile.Probe

open Lprofile.Lib Lprofile.Utils

/-- The record that the `k`-th `fread` takes off `bytes`. -/
def recordAt (bytes : List Byte) (k : Nat) : ProfRecord :=
  .ofBytes ((bytes.drop (profRecordSize * k)).take profRecordSize)

/-- A probe call as `insertCount` plants it for the function `name` of the map. -/
def probeCall (m : FuncMap) (name : CStr) (isPost : Bool) (cyc : BitVec 64) : ProbeCall :=
  ⟨BitVec.ofNat 32 (getFunctionID m name), isPost, cyc⟩

/-- `bytes` is what a call leaves in the stream of the slot `t`. -/
def Writes (c : ProbeCall) (samples : Nat → PmcSample) (t : ProfTinfo) (os : Os)
    (bytes : List Byte) : Prop :=
  ∃ t' os', readCount c samples t os = .ok (t', os') ∧ t'.stream = t.stream ++ bytes

/-- The function number and the event position that a decoded record shows. -/
def ProfRecord.key (r : ProfRecord) : Nat × Nat := (r.funcIdx.toNat, r.evIdx.toNat)

/-- Calls for the functions of `m` on the slot `t`, whose list has `n` events: their records show
the number and the position, and differ from the records that a call for another function, or for
another event, leaves in this slot or in any slot with a list of this length. -/
structure FieldsWide (m : FuncMap) (t : ProfTinfo) (n : Nat) : Prop where
  carried : ∀ name ∈ m.funcs, ∀ isPost cyc samples os, ∃ bytes,
    Writes (probeCall m name isPost cyc) samples t os bytes ∧
      ∀ ev < n, (recordAt bytes ev).key = (getFunctionID m name, ev)
  apart : ∀ name ∈ m.funcs, ∀ name' ∈ m.funcs, ∀ isPost isPost' cyc cyc' samples samples' os os'
    bytes bytes' t' l' f', RunningSlot t' l' f' → l'.entries.length = n →
    Writes (probeCall m name isPost cyc) samples t os bytes →
    Writes (probeCall m name' isPost' cyc') samples' t' os' bytes' → ∀ ev < n, ∀ ev' < n,
    (getFunctionID m name, ev) ≠ (getFunctionID m name', ev') →
      (recordAt bytes ev).key ≠ (recordAt bytes' ev').key

/-! ## Decoding -/

theorem recordAt_recordBytes : ∀ {rs : List ProfRecord} {k : Nat} (hk : k < rs.length),
    recordAt (recordBytes rs) k = rs[k]
  | r :: rs, 0, _ => by
    have hlen := length_bytes r
    rw [recordAt, recordBytes, List.flatMap_cons, Nat.mul_zero, List.drop_zero,
      List.take_left' hlen, ofBytes_bytes]
    rfl
  | r :: rs, k + 1, hk => by
    have hlen := length_bytes r
    have hdrop : (recordBytes (r :: rs)).drop (profRecordSize * (k + 1)) =
        (recordBytes rs).drop (profRecordSize * k) := by
      rw [recordBytes, List.flatMap_cons, Nat.mul_succ, Nat.add_comm, ← List.drop_drop,
        List.drop_left' hlen]
      rfl
    rw [recordAt, hdrop]
    exact recordAt_recordBytes (Nat.lt_of_succ_lt_succ hk)

/-- What a call leaves in a running slot decodes to the records of the call. -/
theorem Writes.key_eq {t : ProfTinfo} {l : ProfEvlist} {f : OutFile} (h : RunningSlot t l f)
    {c : ProbeCall} {samples : Nat → PmcSample} {os : Os} {bytes : List Byte}
    (hw : Writes c samples t os bytes) {ev : Nat} (hev : ev < l.entries.length) :
    (recordAt bytes ev).key = (c.func.toNat % 2 ^ 16, ev % 2 ^ 8) := by
  obtain ⟨t', os', hr, hstream⟩ := hw
  obtain ⟨t1, f1, os1, hr1, -, hrec⟩ := readCount_spec h c samples os
  obtain ⟨rfl, rfl⟩ : t1 = t' ∧ os1 = os' := by
    rw [hr] at hr1
    cases hr1
    exact ⟨rfl, rfl⟩
  have hbytes : bytes = recordBytes (callRecords c samples l.entries) :=
    List.append_cancel_left (hstream.symm.trans hrec.stream)
  have hlen : ev < (callRecords c samples l.entries).length := by
    rwa [callRecords, List.length_mapIdx]
  rw [hbytes, recordAt_recordBytes hlen]
  simp [callRecords, ProbeCall.recordOf, ProbeCall.record, ProfRecord.key]

/-- Every call on a running slot leaves its records. -/
theorem RunningSlot.exists_writes {t : ProfTinfo} {l : ProfEvlist} {f : OutFile}
    (h : RunningSlot t l f) (c : ProbeCall) (samples : Nat → PmcSample) (os : Os) :
    ∃ bytes, Writes c samples t os bytes := by
  obtain ⟨t', f', os', hr, -, hrec⟩ := readCount_spec h c samples os
  exact ⟨_, t', os', hr, hrec.stream⟩

/-! ## Maps and lists that fit -/

theorem getFunctionID_getElem {m : FuncMap} (hm : m.Numbered) {i : Nat} (hi : i < m.funcs.length) :
    getFunctionID m m.funcs[i] = i % 2 ^ 32 := by
  rw [hm.getFunctionID_eq, if_pos (List.getElem_mem hi), hm.nodup.idxOf_getElem]

theorem Writes.key_of_le {t : ProfTinfo} {l : ProfEvlist} {f : OutFile} (h : RunningSlot t l f)
    {m : FuncMap} (hm : m.Numbered) (hfit : m.funcs.length ≤ 2 ^ 16)
    (hlist : l.entries.length ≤ 2 ^ 8) {name : CStr} (hname : name ∈ m.funcs) {isPost : Bool}
    {cyc : BitVec 64} {samples : Nat → PmcSample} {os : Os} {bytes : List Byte}
    (hw : Writes (probeCall m name isPost cyc) samples t os bytes) {ev : Nat}
    (hev : ev < l.entries.length) : (recordAt bytes ev).key = (getFunctionID m name, ev) := by
  obtain ⟨i, hi, rfl⟩ := List.getElem_of_mem hname
  have hid := getFunctionID_getElem hm hi
  rw [hw.key_eq h hev]
  simp only [probeCall, BitVec.toNat_ofNat, Prod.mk.injEq]
  omega

/-- The call for function 65536 shows function 0. -/
theorem FieldsWide.funcs_le {t : ProfTinfo} {l : ProfEvlist} {f : OutFile} (h : RunningSlot t l f)
    {m : FuncMap} (hm : m.Numbered) (hl : 0 < l.entries.length)
    (hw : FieldsWide m t l.entries.length) (samples : Nat → PmcSample) (os : Os) :
    m.funcs.length ≤ 2 ^ 16 := by
  by_contra hlong
  have hi : 2 ^ 16 < m.funcs.length := by omega
  obtain ⟨bytes, hbytes, hkey⟩ :=
    hw.carried m.funcs[2 ^ 16] (List.getElem_mem hi) false 0 samples os
  have hid := getFunctionID_getElem hm hi
  have hk := hkey 0 hl
  rw [hbytes.key_eq h hl] at hk
  simp only [probeCall, hid, BitVec.toNat_ofNat, Prod.mk.injEq] at hk
  omega

/-- The record of event 256 shows event 0. -/
theorem FieldsWide.entries_le {t : ProfTinfo} {l : ProfEvlist} {f : OutFile}
    (h : RunningSlot t l f) {m : FuncMap} (hf : m.funcs ≠ [])
    (hw : FieldsWide m t l.entries.length) (samples : Nat → PmcSample) (os : Os) :
    l.entries.length ≤ 2 ^ 8 := by
  by_contra hlong
  have hev : 2 ^ 8 < l.entries.length := by omega
  obtain ⟨name, names, hnames⟩ := List.exists_cons_of_ne_nil hf
  have hname : name ∈ m.funcs := by
    rw [hnames]
    exact List.mem_cons_self
  obtain ⟨bytes, hbytes, hkey⟩ := hw.carried name hname false 0 samples os
  have hk := hkey (2 ^ 8) hev
  rw [hbytes.key_eq h hev] at hk
  simp only [Prod.mk.injEq] at hk
  omega

theorem fieldsWide_of_le {t : ProfTinfo} {l : ProfEvlist} {f : OutFile} (h : RunningSlot t l f)
    {m : FuncMap} (hm : m.Numbered) (hfit : m.funcs.length ≤ 2 ^ 16)
    (hlist : l.entries.length ≤ 2 ^ 8) : FieldsWide m t l.entries.length where
  carried name hname isPost cyc samples os := by
    obtain ⟨bytes, hw⟩ := h.exists_writes (probeCall m name isPost cyc) samples os
    exact ⟨bytes, hw, fun ev hev => hw.key_of_le h hm hfit hlist hname hev⟩
  apart name hname name' hname' _ _ _ _ _ _ _ _ _ _ _ l' _ h' hlen hw hw' ev hev ev' hev' hne := by
    rw [← hlen] at hlist hev'
    rw [hw.key_of_le h hm hfit (hlen ▸ hlist) hname hev,
      hw'.key_of_le h' hm hfit hlist hname' hev']
    exact hne

theorem numbered_addFunctions (skip names : List CStr) (path : CStr) (wrap : Bool) :
    (addFunctions skip (FuncMap.ofPath path wrap) names).Numbered :=
  (addFunctions_spec (FuncMap.numbered_ofPath path wrap) skip names).1

/-- **The fields are wide enough exactly for what fits them.** For every map that `addFunction`
builds from any names and every running slot: the records of calls carry the function numbers and
the event positions, and tell functions and events apart, iff nothing is recorded, or the map has
at most 65536 functions and the list at most 256 events. -/
theorem fieldsWide_iff (skip names : List CStr) (path : CStr) (wrap : Bool) (t : ProfTinfo)
    (l : ProfEvlist) (f : OutFile) (h : RunningSlot t l f) :
    let m := addFunctions skip (FuncMap.ofPath path wrap) names
    FieldsWide m t l.entries.length ↔
      l.entries = [] ∨ m.funcs = [] ∨ (m.funcs.length ≤ 2 ^ 16 ∧ l.entries.length ≤ 2 ^ 8) := by
  intro m
  have hm : m.Numbered := numbered_addFunctions skip names path wrap
  constructor
  · intro hw
    by_cases hl : l.entries = []
    · exact .inl hl
    by_cases hf : m.funcs = []
    · exact .inr (.inl hf)
    refine .inr (.inr ⟨?_, ?_⟩)
    · exact hw.funcs_le h hm (List.length_pos_of_ne_nil hl) (fun _ => closedPage) (Os.boot .granting)
    · exact hw.entries_le h hf (fun _ => closedPage) (Os.boot .granting)
  · rintro (hl | hf | ⟨hfit, hlist⟩)
    · rw [hl]
      refine ⟨fun name _ isPost cyc samples os => ?_, fun _ _ _ _ _ _ _ _ _ _ _ _ _ _ _ _ _ _ _ _
        _ ev hev => absurd hev (Nat.not_lt_zero ev)⟩
      obtain ⟨bytes, hw⟩ := h.exists_writes (probeCall m name isPost cyc) samples os
      exact ⟨bytes, hw, fun ev hev => absurd hev (Nat.not_lt_zero ev)⟩
    · refine ⟨fun name hname => ?_, fun name hname => ?_⟩
      · rw [hf] at hname
        exact absurd hname List.not_mem_nil
      · rw [hf] at hname
        exact absurd hname List.not_mem_nil
    · exact fieldsWide_of_le h hm hfit hlist

/-- The slot of the main thread runs, with one event. -/
theorem solo_running : ∃ l f, RunningSlot (soloProc.slot 0) l f ∧ 0 < l.entries.length := by
  have hinit := lprobeInit_ok ⟨by decide, by decide⟩ soloInit_eq
  obtain ⟨l, f, h⟩ := hinit.table.running 0 rfl
  refine ⟨l, f, h, ?_⟩
  have hl := h.evlist
  cases hl
  exact Nat.zero_lt_one

theorem fieldsWide_iff_main : ∃ l f, RunningSlot (soloProc.slot 0) l f ∧
    let m := addFunctions [] (FuncMap.ofPath "a.out".toList false) ["main".toList, "f".toList]
    (FieldsWide m (soloProc.slot 0) l.entries.length ↔
      l.entries = [] ∨ m.funcs = [] ∨ (m.funcs.length ≤ 2 ^ 16 ∧ l.entries.length ≤ 2 ^ 8)) := by
  obtain ⟨l, f, h, -⟩ := solo_running
  exact ⟨l, f, h, fieldsWide_iff _ _ _ _ _ l f h⟩

/-- 65537 functions are too many for `func_idx`. -/
theorem func_idx_too_narrow : ∃ l f, RunningSlot (soloProc.slot 0) l f ∧
    ¬ FieldsWide (addFunctions [] (FuncMap.ofPath "a.out".toList false)
      ((List.range 65537).map decimal)) (soloProc.slot 0) l.entries.length := by
  obtain ⟨l, f, h, hl⟩ := solo_running
  refine ⟨l, f, h, fun hw => ?_⟩
  have hnum := FuncMap.numbered_ofPath "a.out".toList false
  obtain ⟨hm, hfuncs⟩ := addFunctions_spec hnum [] ((List.range 65537).map decimal)
  have hle := hw.funcs_le h hm hl (fun _ => closedPage) (Os.boot .granting)
  have hnd : ((List.range 65537).map decimal).Nodup :=
    List.Nodup.map decimal_injective List.nodup_range
  have hall : insertAll [] [] ((List.range 65537).map decimal) = [] ++ (List.range 65537).map decimal :=
    insertAll_eq_append hnd (fun _ _ => List.not_mem_nil) (fun _ _ => List.not_mem_nil)
  rw [hfuncs, show (FuncMap.ofPath "a.out".toList false).funcs = [] from rfl, hall,
    List.nil_append, List.length_map, List.length_range] at hle
  omega

end Lprofile.Probe
