import Lprofile.Lib.Machine
import Lprofile.Probe.Profile

/-!
# Slot allocation

`Registers g pid id g'` is everything a registration of `pid` in slot `id` does.
`SlotInv` is the invariant of the table between `lprobe_init` and `lprobe_exit`:
the slots are taken in order, so `thread_nid` is `thread_nb` until the table is
full, the slots taken are those below it, and those above it have tid 0. The
slot at `thread_nid` itself may hold a stale tid that `__scan_threads` wrote for
an entry it did not count.
-/

namespace Lprofile.Probe

open Lprofile.Lib

/-! ## One registration -/

/-- `g'` is `g` after `pid` was registered in slot `id`. -/
structure Registers (g : Proc) (pid : Int) (id : Fin profThreadMax) (g' : Proc) : Prop where
  nid : g.info.threadNid = id
  slot_eq : g'.slot id = (initTinfo g.info { g.slot id with tid := pid } g.os).1
  slot_ne : ∀ j, j ≠ id → g'.slot j = g.slot j
  os : g'.os = (initTinfo g.info { g.slot id with tid := pid } g.os).2
  inits : g'.inits = g.inits ++ [id]
  threadNb : g'.info.threadNb = g.info.threadNb + 1
  threadNid : g'.info.threadNid = (updateThreadnid { g'.info with threadNid := id }).threadNid
  evlistStr : g'.info.evlistStr = g.info.evlistStr
  isError : g'.info.isError = g.info.isError
  flog : g'.info.flog = g.info.flog

namespace Registers

variable {g g' : Proc} {pid : Int} {id i : Fin profThreadMax} {P : ProfTinfo → Prop}

theorem mem_inits (r : Registers g pid id g') (hi : i ∈ g.inits) : i ∈ g'.inits := by
  rw [r.inits]
  exact List.mem_append_left _ hi

theorem slot_of_mem (r : Registers g pid id g') (hid : id ∉ g.inits) (hi : i ∈ g.inits) :
    g'.slot i = g.slot i :=
  r.slot_ne i fun e => hid (e ▸ hi)

theorem forall_slot (r : Registers g pid id g') (hnew : P (g'.slot id))
    (hold : ∀ i, P (g.slot i)) (i : Fin profThreadMax) : P (g'.slot i) := by
  by_cases hi : i = id
  · rw [hi]
    exact hnew
  · rw [r.slot_ne i hi]
    exact hold i

theorem forall_inits (r : Registers g pid id g') (hnew : P (g'.slot id))
    (hold : ∀ i ∈ g.inits, P (g.slot i)) : ∀ i ∈ g'.inits, P (g'.slot i) := by
  intro i hi
  by_cases he : i = id
  · rw [he]
    exact hnew
  · rw [r.inits, List.mem_append, List.mem_singleton, or_iff_left he] at hi
    rw [r.slot_ne i he]
    exact hold i hi

end Registers

/-- `__update_threadnid` only assigns `thread_nid`. -/
theorem updateThreadnid_eq (info : ProfInfo) :
    updateThreadnid info = { info with threadNid := (updateThreadnid info).threadNid } := by
  unfold updateThreadnid
  split
  · rfl
  · split <;> rfl

/-- `__init_thread` reads nothing of `globalinfo` but the event string. -/
theorem initTinfo_congr {info info' : ProfInfo} (h : info.evlistStr = info'.evlistStr)
    (t : ProfTinfo) (os : Os) : initTinfo info t os = initTinfo info' t os := by
  unfold initTinfo createEvlist
  rw [h]

theorem updateThreadnid_restore (info : ProfInfo) :
    { updateThreadnid info with threadNid := info.threadNid } = info := by
  rw [updateThreadnid_eq]

theorem takeSlot_registers {g : Proc} {id : Fin profThreadMax} (pid : Int)
    (hid : g.info.threadNid = id) :
    Registers g pid id (takeSlot (g.setSlot id { g.slot id with tid := pid }) id) := by
  have hthreads : ∀ info : ProfInfo, (updateThreadnid info).threads = info.threads := by
    intro info
    rw [updateThreadnid_eq]
  refine ⟨hid, ?_, fun j hj => ?_, ?_, rfl, ?_, ?_, ?_, ?_, ?_⟩
  · simp only [takeSlot, Proc.slot, hthreads, initThread, Proc.setSlot, Function.update_self]
    exact congrArg Prod.fst (initTinfo_congr rfl _ _)
  · simp only [takeSlot, Proc.slot, hthreads, initThread, Proc.setSlot, Function.update_of_ne hj]
  · simp only [takeSlot, initThread, Proc.slot, Proc.setSlot, Function.update_self]
    exact congrArg Prod.snd (initTinfo_congr rfl _ _)
  · rw [takeSlot, updateThreadnid_eq]
    rfl
  · simp only [takeSlot]
    generalize hX : (initThread _ id).info = info
    have hn : info.threadNid = id := by rw [← hX]; exact hid
    rw [← hn, updateThreadnid_restore]
  all_goals
    rw [takeSlot, updateThreadnid_eq]
    rfl

theorem slotAt_eq {nid : Nat} {id : Fin profThreadMax} (h : nid = id) : slotAt nid = .ok id := by
  subst h
  simp [slotAt, id.isLt]

theorem registerTid_ok {g : Proc} {id : Fin profThreadMax} (pid : Int)
    (hid : g.info.threadNid = id) : ∃ g', registerTid pid g = .ok g' ∧ Registers g pid id g' := by
  have hs := slotAt_eq hid
  refine ⟨_, ?_, takeSlot_registers pid hid⟩
  simp only [registerTid, hs]

/-! ## The invariant -/

structure SlotInv (g : Proc) : Prop where
  nb_le : g.info.threadNb ≤ profThreadMax
  nid : g.info.threadNid =
    if g.info.threadNb < profThreadMax then g.info.threadNb else uintMax
  free : ∀ i : Fin profThreadMax, g.info.threadNb < i → (g.slot i).tid = 0
  inits_mem : ∀ i, i ∈ g.inits ↔ i.val < g.info.threadNb
  inits_nodup : g.inits.Nodup
  inits_length : g.inits.length = g.info.threadNb

theorem slotInv_initial {g : Proc} (hnb : g.info.threadNb = 0) (hnid : g.info.threadNid = 0)
    (hthreads : g.info.threads = globalinfo.threads) (hinits : g.inits = []) : SlotInv g where
  nb_le := by rw [hnb]; exact Nat.zero_le _
  nid := by rw [hnid, hnb]; rfl
  free i _ := by rw [Proc.slot, hthreads]; rfl
  inits_mem i := by simp [hinits, hnb]
  inits_nodup := by rw [hinits]; exact List.nodup_nil
  inits_length := by rw [hinits, hnb]; rfl

theorem slotInv_procInitial (os : Os) : SlotInv (Proc.initial os) :=
  slotInv_initial rfl rfl rfl rfl

/-- After a registration the next slot is free, or the table is full. -/
theorem updateThreadnid_next {info : ProfInfo} {id : Fin profThreadMax}
    (hnb : info.threadNb = id + 1)
    (hfree : ∀ i : Fin profThreadMax, id < i → (info.threads i).tid = 0) :
    (updateThreadnid { info with threadNid := id }).threadNid =
      if info.threadNb < profThreadMax then info.threadNb else uintMax := by
  have hid := id.isLt
  unfold updateThreadnid
  by_cases hfull : profThreadMax ≤ info.threadNb
  · have : ¬ info.threadNb < profThreadMax := by omega
    simp only [hfull, ↓reduceIte, this]
  · have hlt : info.threadNb < profThreadMax := by omega
    have hnext : Fin.ofNat profThreadMax (id + 1) = ⟨id + 1, by omega⟩ := by
      apply Fin.ext
      simp only [Fin.val_ofNat]
      exact Nat.mod_eq_of_lt (by omega)
    have htid : (info.threads (Fin.ofNat profThreadMax (id + 1))).tid = 0 := by
      rw [hnext]
      exact hfree _ (by simp [Fin.lt_def])
    simp only [hfull, ↓reduceIte, hlt, show profThreadMax - 1 = 62 + 1 by rfl, List.range'_succ]
    rw [List.find?_cons_of_pos (by simpa using htid)]
    simp only
    rw [hnb, Nat.mod_eq_of_lt (by omega)]

theorem Registers.slotInv {g g' : Proc} {pid : Int} {id : Fin profThreadMax}
    (r : Registers g pid id g') (h : SlotInv g) (hid : g.info.threadNb = id) : SlotInv g' := by
  have hlt := id.isLt
  have hfree : ∀ i : Fin profThreadMax, id < i → (g'.slot i).tid = 0 := by
    intro i hi
    rw [r.slot_ne i (by rintro rfl; exact absurd hi (lt_irrefl _))]
    exact h.free i (by rw [hid]; exact hi)
  refine ⟨by rw [r.threadNb]; omega, ?_, fun i hi => hfree i ?_, fun i => ?_, ?_, ?_⟩
  · rw [r.threadNid]
    exact updateThreadnid_next (by rw [r.threadNb, hid]) hfree
  · rw [r.threadNb, hid] at hi
    exact Fin.lt_def.2 (by omega)
  · rw [r.inits, r.threadNb, List.mem_append, h.inits_mem, List.mem_singleton, hid, Fin.ext_iff]
    omega
  · rw [r.inits]
    refine List.nodup_append.2 ⟨h.inits_nodup, List.nodup_singleton _, ?_⟩
    intro a ha b hb
    rw [List.mem_singleton] at hb
    subst hb
    rintro rfl
    rw [h.inits_mem, hid] at ha
    exact absurd ha (lt_irrefl _)
  · rw [r.inits, r.threadNb, List.length_append, h.inits_length, List.length_singleton]

/-- The slot `thread_nid` names, while the table is not full. -/
theorem SlotInv.next {g : Proc} (h : SlotInv g) (hlt : g.info.threadNb < profThreadMax) :
    ∃ id : Fin profThreadMax, g.info.threadNid = id ∧ g.info.threadNb = id :=
  ⟨⟨g.info.threadNb, hlt⟩, by rw [h.nid, if_pos hlt], rfl⟩

theorem SlotInv.nid_eq_uintMax_iff {g : Proc} (h : SlotInv g) :
    g.info.threadNid = uintMax ↔ g.info.threadNb = profThreadMax := by
  have hle := h.nb_le
  rw [h.nid]
  split
  · unfold profThreadMax uintMax at *
    omega
  · constructor
    · intro _
      omega
    · intro _
      rfl

theorem SlotInv.lt_of_nid_ne {g : Proc} (h : SlotInv g) (hne : g.info.threadNid ≠ uintMax) :
    g.info.threadNb < profThreadMax := by
  have hle := h.nb_le
  have hnb : g.info.threadNb ≠ profThreadMax := fun e => hne (h.nid_eq_uintMax_iff.2 e)
  omega

/-- The slot at `thread_nid` was never initialised. -/
theorem SlotInv.not_mem_inits {g : Proc} (h : SlotInv g) {id : Fin profThreadMax}
    (hnb : g.info.threadNb = id) : id ∉ g.inits := by
  rw [h.inits_mem, hnb]
  exact lt_irrefl _

/-! ## Scanning the task directory -/

theorem SlotInv.registerTid {g : Proc} (h : SlotInv g) (hlt : g.info.threadNb < profThreadMax)
    (pid : Int) : ∃ g' id, registerTid pid g = .ok g' ∧ Registers g pid id g' ∧ SlotInv g' := by
  obtain ⟨id, hnid, hnb⟩ := h.next hlt
  obtain ⟨g', hg', r⟩ := registerTid_ok pid hnid
  exact ⟨g', id, hg', r, r.slotInv h hnb⟩

/-- A stale tid in the slot at `thread_nid` is harmless. -/
theorem SlotInv.setTid {g : Proc} (h : SlotInv g) {id : Fin profThreadMax}
    (hnb : g.info.threadNb = id) (tid : Int) :
    SlotInv (g.setSlot id { g.slot id with tid := tid }) := by
  refine ⟨h.nb_le, h.nid, fun i hi => ?_, h.inits_mem, h.inits_nodup, h.inits_length⟩
  have hne : i ≠ id := by
    rintro rfl
    exact absurd (hnb ▸ hi : (i : Nat) < i) (lt_irrefl _)
  simp only [Proc.slot, Proc.setSlot, Function.update_of_ne hne]
  exact h.free i hi

/-- The slots initialised before are there as they were. -/
def KeepsSlots (g g' : Proc) : Prop := ∀ i ∈ g.inits, i ∈ g'.inits ∧ g'.slot i = g.slot i

theorem KeepsSlots.trans {g g' g'' : Proc} (h : KeepsSlots g g') (h' : KeepsSlots g' g'') :
    KeepsSlots g g'' := by
  intro i hi
  obtain ⟨hi', hs⟩ := h i hi
  obtain ⟨hi'', hs'⟩ := h' i hi'
  exact ⟨hi'', hs'.trans hs⟩

theorem Registers.keepsSlots {g g' : Proc} {pid : Int} {id : Fin profThreadMax}
    (r : Registers g pid id g') (h : SlotInv g) (hid : g.info.threadNb = id) : KeepsSlots g g' := by
  have hfresh : id ∉ g.inits := by
    rw [h.inits_mem, hid]
    exact lt_irrefl _
  exact fun i hi => ⟨r.mem_inits hi, r.slot_of_mem hfresh hi⟩

theorem keepsSlots_setTid {g : Proc} (h : SlotInv g) {id : Fin profThreadMax}
    (hid : g.info.threadNb = id) (tid : Int) :
    KeepsSlots g (g.setSlot id { g.slot id with tid := tid }) := by
  intro i hi
  refine ⟨hi, Proc.slot_setSlot_ne _ _ ?_⟩
  rintro rfl
  rw [h.inits_mem, hid] at hi
  exact absurd hi (lt_irrefl _)

theorem SlotInv.slotAt_full {g : Proc} (h : SlotInv g) (hfull : ¬ g.info.threadNb < profThreadMax) :
    slotAt g.info.threadNid = .error (.threadsIndex uintMax) := by
  rw [h.nid, if_neg hfull]
  rfl

/-- An entry is counted if it is a positive number. -/
theorem SlotInv.scanEntry {g : Proc} (h : SlotInv g) (hlt : g.info.threadNb < profThreadMax)
    (name : CStr) : ∃ g', Probe.scanEntry g name = .ok g' ∧ SlotInv g' ∧ KeepsSlots g g' ∧
      g'.info.threadNb = g.info.threadNb + if 0 < atoi name then 1 else 0 := by
  obtain ⟨id, hnid, hnb⟩ := h.next hlt
  have hs := slotAt_eq hnid
  have r := takeSlot_registers (atoi name) hnid
  simp only [Probe.scanEntry, hs]
  split
  · exact ⟨_, rfl, r.slotInv h hnb, r.keepsSlots h hnb, r.threadNb⟩
  · exact ⟨_, rfl, h.setTid hnb _, keepsSlots_setTid h hnb _, rfl⟩

theorem SlotInv.scanEntries_keeps : ∀ {names : List CStr} {g g' : Proc}, SlotInv g →
    Probe.scanEntries g names = .ok g' → SlotInv g' ∧ KeepsSlots g g'
  | [], g, g', h, hg => by
    cases hg
    exact ⟨h, fun i hi => ⟨hi, rfl⟩⟩
  | name :: names, g, g', h, hg => by
    by_cases hlt : g.info.threadNb < profThreadMax
    · obtain ⟨g1, h1, hi1, hk1, -⟩ := h.scanEntry hlt name
      simp only [Probe.scanEntries, h1] at hg
      obtain ⟨hi', hk'⟩ := SlotInv.scanEntries_keeps hi1 hg
      exact ⟨hi', hk1.trans hk'⟩
    · simp only [Probe.scanEntries, Probe.scanEntry, h.slotAt_full hlt] at hg
      cases hg

/-- The loop ends inside the table iff each entry still finds a free slot. -/
theorem SlotInv.scanEntries_ok_iff : ∀ {names : List CStr} {g : Proc}, SlotInv g → names ≠ [] →
    ((∃ g', Probe.scanEntries g names = .ok g') ↔
      g.info.threadNb + names.dropLast.countP (fun name => 0 < atoi name) < profThreadMax)
  | [], _, _, hne => absurd rfl hne
  | name :: names, g, h, _ => by
    by_cases hlt : g.info.threadNb < profThreadMax
    · obtain ⟨g1, h1, hi1, -, hnb⟩ := h.scanEntry hlt name
      simp only [Probe.scanEntries, h1]
      cases names with
      | nil => exact iff_of_true ⟨g1, rfl⟩ hlt
      | cons name' names =>
        rw [SlotInv.scanEntries_ok_iff hi1 (List.cons_ne_nil _ _), hnb,
          List.dropLast_cons_of_ne_nil (List.cons_ne_nil _ _), List.countP_cons]
        simp only [decide_eq_true_eq]
        omega
    · refine iff_of_false ?_ (by omega)
      rintro ⟨g', hg⟩
      simp only [Probe.scanEntries, Probe.scanEntry, h.slotAt_full hlt] at hg
      cases hg

theorem SlotInv.registerTid_ok_iff {g : Proc} (h : SlotInv g) (pid : Int) :
    (∃ g', Probe.registerTid pid g = .ok g') ↔ g.info.threadNb < profThreadMax := by
  constructor
  · rintro ⟨g', hg⟩
    by_contra hfull
    simp only [Probe.registerTid, h.slotAt_full hfull] at hg
    cases hg
  · intro hlt
    obtain ⟨g', id, hg', -⟩ := h.registerTid hlt pid
    exact ⟨g', hg'⟩

theorem SlotInv.registerTid_keeps {g g' : Proc} (h : SlotInv g) {pid : Int}
    (hg : Probe.registerTid pid g = .ok g') : SlotInv g' ∧ KeepsSlots g g' := by
  have hlt := (h.registerTid_ok_iff pid).1 ⟨g', hg⟩
  obtain ⟨id, hnid, hnb⟩ := h.next hlt
  obtain ⟨g1, h1, r⟩ := registerTid_ok pid hnid
  rw [h1] at hg
  cases hg
  exact ⟨r.slotInv h hnb, r.keepsSlots h hnb⟩

/-- A listing that is no longer than what is free stays inside the table. -/
theorem SlotInv.scanEntries {names : List CStr} {g : Proc} (h : SlotInv g)
    (hlen : g.info.threadNb + names.length ≤ profThreadMax) :
    ∃ g', scanEntries g names = .ok g' ∧ SlotInv g' := by
  have hok : ∃ g', Probe.scanEntries g names = .ok g' := by
    by_cases hnil : names = []
    · rw [hnil]
      exact ⟨g, rfl⟩
    · have hpos := List.length_pos_of_ne_nil hnil
      have hle : names.dropLast.countP (fun name => 0 < atoi name) ≤ names.dropLast.length :=
        List.countP_le_length
      rw [List.length_dropLast] at hle
      exact (h.scanEntries_ok_iff hnil).2 (by omega)
  obtain ⟨g', hg'⟩ := hok
  exact ⟨g', hg', (h.scanEntries_keeps hg').1⟩

/-- The entries `__scan_threads` goes through. -/
def scanItems (namelist : Option (List CStr)) : List CStr :=
  ((namelist.getD []).filter dirFilter).take profThreadMax

/-- With `nb` slots taken, the table is not full before the last entry is reached. -/
def ScanFits (namelist : Option (List CStr)) (nb : Nat) : Prop :=
  nb + (scanItems namelist).dropLast.countP (fun name => 0 < atoi name) < profThreadMax

theorem length_scanItems_le (namelist : Option (List CStr)) :
    (scanItems namelist).length ≤ profThreadMax := by
  rw [scanItems, List.length_take]
  exact Nat.min_le_left _ _

/-- A scan goes through the entries, or registers the process when there are none. -/
theorem scanThreads_eq (pid : Int) (namelist : Option (List CStr)) (g : Proc) :
    scanThreads pid namelist g = if scanItems namelist = [] then registerTid pid g
      else scanEntries g (scanItems namelist) := by
  cases namelist with
  | none => rfl
  | some names =>
    have hnil : scanItems (some names) = [] ↔ (names.filter dirFilter).length ≤ 0 := by
      rw [scanItems, Option.getD_some, List.take_eq_nil_iff, or_iff_right (by decide),
        Nat.le_zero, List.length_eq_zero_iff]
    unfold scanThreads
    dsimp only
    by_cases h : (names.filter dirFilter).length ≤ 0
    · rw [if_pos h, if_pos (hnil.2 h)]
    · rw [if_neg h, if_neg (mt hnil.1 h)]
      rfl

theorem SlotInv.scanThreads_keeps {g g' : Proc} (h : SlotInv g) {pid : Int}
    {namelist : Option (List CStr)} (hg : Probe.scanThreads pid namelist g = .ok g') :
    SlotInv g' ∧ KeepsSlots g g' := by
  rw [scanThreads_eq] at hg
  split at hg
  · exact h.registerTid_keeps hg
  · exact h.scanEntries_keeps hg

theorem SlotInv.scanThreads_ok_iff {g : Proc} (h : SlotInv g) (pid : Int)
    (namelist : Option (List CStr)) :
    (∃ g', Probe.scanThreads pid namelist g = .ok g') ↔ ScanFits namelist g.info.threadNb := by
  rw [scanThreads_eq, ScanFits]
  split
  · rename_i hnil
    rw [h.registerTid_ok_iff, hnil]
    rfl
  · rename_i hne
    exact h.scanEntries_ok_iff hne

/-- `__scan_threads` on an empty table stays inside it, whatever the directory holds. -/
theorem SlotInv.scanThreads {g : Proc} (h : SlotInv g) (h0 : g.info.threadNb = 0) (pid : Int)
    (namelist : Option (List CStr)) : ∃ g', scanThreads pid namelist g = .ok g' ∧ SlotInv g' := by
  have hitems : (scanItems namelist).length ≤ profThreadMax := length_scanItems_le namelist
  rw [scanThreads_eq]
  split
  · obtain ⟨g', id, hg', -, hi⟩ := h.registerTid (by rw [h0]; decide) pid
    exact ⟨g', hg', hi⟩
  · exact h.scanEntries (by omega)

/-! ## `lprobe_init` -/

theorem failCloseLog_slotInv {tls tls' : Tls} {g g' : Proc} {ret : Int} (h : SlotInv g)
    (hf : failCloseLog tls g = .ok (ret, tls', g')) : SlotInv g' := by
  unfold failCloseLog at hf
  split at hf
  · cases hf
  · cases hf
    exact ⟨h.nb_le, h.nid, h.free, h.inits_mem, h.inits_nodup, h.inits_length⟩

/-- The table `lprobe_init` leaves behind satisfies the invariant. -/
theorem SlotInv.lprobeInit {evlistStr : CStr} {minId maxId freq : Nat} {pid : Int} {mutexOk : Bool}
    {namelist : Option (List CStr)} {tls tls' : Tls} {ret : Int} {g g' : Proc} (h : SlotInv g)
    (hg : Probe.lprobeInit evlistStr minId maxId freq pid mutexOk namelist tls g =
      .ok (ret, tls', g')) : SlotInv g' := by
  unfold Probe.lprobeInit at hg
  dsimp only at hg
  have h0 : SlotInv { g with info := { g.info with
      maxIndex := maxId, minIndex := minId, sampleFreq := freq, evlistStr := some evlistStr } } :=
    ⟨h.nb_le, h.nid, h.free, h.inits_mem, h.inits_nodup, h.inits_length⟩
  split at hg
  · exact failCloseLog_slotInv h0 hg
  · split at hg
    · cases hg
    · rename_i g1 hg1
      have h1 := (h0.scanThreads_keeps hg1).1
      split at hg
      · cases hg
      · split at hg
        · exact failCloseLog_slotInv h1 hg
        · cases hg
          exact h1

/-- The main thread, 100, runs `lprobe_init` alone: `scandir` fails, and it gets slot 0. -/
def soloInit : Except Fault (Int × Tls × Proc) :=
  lprobeInit "cpu-cycles".toList 0 0 0 100 true none .initial (Proc.initial (Os.boot .granting))

def soloProc : Proc :=
  match soloInit with
  | .ok r => r.2.2
  | .error _ => Proc.initial (Os.boot .granting)

theorem soloInit_eq : soloInit = .ok (0, ⟨some 0, false, 100⟩, soloProc) := rfl

/-! ## Serial runs -/

/-- What the table promises after every operation. -/
structure SlotsOk (g : Proc) : Prop where
  /-- no slot is initialised twice -/
  once : g.inits.Nodup
  /-- `thread_nb` counts the registrations -/
  count : g.info.threadNb = g.inits.length
  full_iff : g.info.threadNid = uintMax ↔ g.info.threadNb = profThreadMax
  /-- otherwise `thread_nid` names a slot that was never initialised -/
  next : g.info.threadNid ≠ uintMax →
    ∃ h : g.info.threadNid < profThreadMax, ⟨g.info.threadNid, h⟩ ∉ g.inits
  /-- a registration in a full table changes nothing -/
  refuse : g.info.threadNid = uintMax → ∀ tid, lprobeThreadInit tid g = .ok g

theorem SlotInv.slotsOk {g : Proc} (h : SlotInv g) : SlotsOk g where
  once := h.inits_nodup
  count := h.inits_length.symm
  full_iff := h.nid_eq_uintMax_iff
  next hne := by
    obtain ⟨id, hnid, hnb⟩ := h.next (h.lt_of_nid_ne hne)
    have hlt : g.info.threadNid < profThreadMax := by rw [hnid]; exact id.isLt
    obtain rfl : ⟨g.info.threadNid, hlt⟩ = id := Fin.ext hnid
    exact ⟨hlt, h.not_mem_inits hnb⟩
  refuse hfull tid := by simp only [lprobeThreadInit, hfull, ↓reduceIte]

/-- Non-overlapping calls of `lprobe_thread_init`, for any tids. -/
def registerMachine : Machine Proc Int Fault where
  Enabled _ _ := True
  step g tid := lprobeThreadInit tid g

theorem SlotInv.lprobeThreadInit {g : Proc} (h : SlotInv g) (tid : Int) :
    ∃ g', lprobeThreadInit tid g = .ok g' ∧ SlotInv g' := by
  unfold Probe.lprobeThreadInit
  split
  · exact ⟨g, rfl, h⟩
  · rename_i hne
    obtain ⟨g', id, hg', -, hi⟩ := h.registerTid (h.lt_of_nid_ne hne) tid
    exact ⟨g', hg', hi⟩

/-- A call adds nothing to a full table, and otherwise exactly the slot that `thread_nid` names. -/
theorem SlotInv.lprobeThreadInit_inits {g g' : Proc} (h : SlotInv g) {tid : Int}
    (hg : Probe.lprobeThreadInit tid g = .ok g') :
    (g.info.threadNid = uintMax → g'.inits = g.inits) ∧
      (g.info.threadNid ≠ uintMax → ∃ id : Fin profThreadMax,
        g.info.threadNid = id ∧ id ∉ g.inits ∧ g'.inits = g.inits ++ [id]) := by
  unfold Probe.lprobeThreadInit at hg
  constructor
  · intro hfull
    rw [if_pos hfull] at hg
    cases hg
    rfl
  · intro hne
    rw [if_neg hne] at hg
    obtain ⟨id, hnid, hnb⟩ := h.next (h.lt_of_nid_ne hne)
    obtain ⟨g₁, hg₁, r⟩ := registerTid_ok tid hnid
    obtain rfl : g₁ = g' := Except.ok.inj (hg₁.symm.trans hg)
    exact ⟨id, hnid, h.not_mem_inits hnb, r.inits⟩

/-- Each call adds one slot, up to the size of the table. -/
theorem registerMachine_inits {g g' : Proc} (h : SlotInv g) {tids : List Int}
    (hr : registerMachine.run g tids = .ok g') :
    g'.inits.length = min (g.inits.length + tids.length) profThreadMax := by
  induction tids generalizing g with
  | nil =>
    cases hr
    rw [List.length_nil, Nat.add_zero, h.inits_length]
    exact (Nat.min_eq_left h.nb_le).symm
  | cons tid tids ih =>
    obtain ⟨g₁, hg₁, hr⟩ := Machine.run_cons_eq_ok.1 hr
    obtain ⟨g₂, hg₂, h₁⟩ := h.lprobeThreadInit tid
    obtain rfl : g₂ = g₁ := Except.ok.inj (hg₂.symm.trans hg₁)
    obtain ⟨hkeep, hadd⟩ := h.lprobeThreadInit_inits hg₁
    rw [ih h₁ hr, List.length_cons]
    by_cases hfull : g.info.threadNid = uintMax
    · have hnb := h.nid_eq_uintMax_iff.1 hfull
      rw [hkeep hfull, h.inits_length, hnb]
      omega
    · obtain ⟨id, -, -, hinits⟩ := hadd hfull
      rw [hinits, List.length_append, List.length_singleton]
      omega

theorem registerMachine_run {g : Proc} (h : SlotInv g) (tids : List Int) :
    ∃ g', registerMachine.run g tids = .ok g' ∧ SlotInv g' := by
  have hl : registerMachine.Legal g tids := by
    clear h
    induction tids generalizing g with
    | nil => trivial
    | cons tid tids ih => exact ⟨trivial, fun _ _ => ih⟩
  exact hl.run_ok (P := fun _ g => SlotInv g) (fun _ g tid hP _ => hP.lprobeThreadInit tid) h

/-- **Serial slot allocation.** One scan of any task listing on the initial table, then any
registrations: no index leaves the table, and `SlotsOk` holds after every operation. -/
theorem serial_slotsOk (os : Os) (evlistStr : Option CStr) (pid : Int)
    (namelist : Option (List CStr)) (tids : List Int) :
    ∃ g, scanThreads pid namelist
        { Proc.initial os with info := { globalinfo with evlistStr := evlistStr } } = .ok g ∧
      ∀ pre, pre <+: tids → ∃ g', registerMachine.run g pre = .ok g' ∧ SlotsOk g' := by
  have h0 : SlotInv { Proc.initial os with info := { globalinfo with evlistStr := evlistStr } } :=
    slotInv_initial rfl rfl rfl rfl
  obtain ⟨g, hg, hi⟩ := h0.scanThreads rfl pid namelist
  refine ⟨g, hg, fun pre _ => ?_⟩
  obtain ⟨g', hg', hi'⟩ := registerMachine_run hi pre
  exact ⟨g', hg', hi'.slotsOk⟩

end Lprofile.Probe
