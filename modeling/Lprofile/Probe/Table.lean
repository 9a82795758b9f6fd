import Lprofile.Probe.Records

/-!
# The contents of the table

`TableOk` is kept by registrations and probes, whatever the system answers: a
running slot is a `RunningSlot`, and a slot that was never initialised is empty.
`lprobeFunc_spec` is what a probe does on such a table: nothing, or the records
of the call go to the slot `enterProbe` chose.

`lprobe_init` establishes the invariant, together with `SlotInv`
(`lprobeInit_ok`).
-/

namespace Lprofile.Probe

open Lprofile.Lib

/-- A slot nothing was recorded in; `__scan_threads` may have left a tid there. -/
def ProfTinfo.empty (tid : Int) : ProfTinfo := { ProfTinfo.initial with tid := tid }

structure TableOk (g : Proc) : Prop where
  running : ∀ i, (g.slot i).state = .running → ∃ l f, RunningSlot (g.slot i) l f
  fresh : ∀ i, i ∉ g.inits → ∃ tid ≤ 0, g.slot i = .empty tid

/-- The tid of a thread is a positive `int`. -/
structure ValidTid (tid : Int) : Prop where
  pos : 0 < tid
  lt : tid < 2 ^ 31

/-! ## `__init_thread` -/

theorem createEvlist_spec (info : ProfInfo) (t : ProfTinfo) (os : Os) :
    EventCalls os (createEvlist info t os).2.2 ∧
    (((createEvlist info t os).1 = -1 ∧ (createEvlist info t os).2.1 = t) ∨
      ((createEvlist info t os).1 = 0 ∧ ∃ l : ProfEvlist, (∀ e ∈ l.entries, Coupled e) ∧
        (createEvlist info t os).2.1 = { t with evlist := some l, state := .running })) := by
  have hadd : ∀ e ∈ (profEvlistAddFromStr (profEvlistNew t.tid) info.evlistStr).2.entries,
      Sound e := sound_addFromStr (fun e he => by cases he) info.evlistStr
  simp only [createEvlist]
  generalize profEvlistAddFromStr (profEvlistNew t.tid) info.evlistStr = a at hadd ⊢
  split
  · exact ⟨eventCalls_profEvlistDelete _ _, .inl ⟨rfl, rfl⟩⟩
  · have hcalls := eventCalls_profEvlistStart a.2 os
    have hstart := sound_profEvlistStart hadd os
    generalize profEvlistStart a.2 os = q at hcalls hstart ⊢
    split
    · exact ⟨hcalls.trans (eventCalls_profEvlistDelete _ _), .inl ⟨rfl, rfl⟩⟩
    · rename_i hok
      exact ⟨hcalls, .inr ⟨rfl, q.2.1, fun e he => (hstart hok e he).toCoupled, rfl⟩⟩

theorem fopen_cases (os : Os) (path : CStr) :
    (∃ os', os.fopen path = (some ⟨path, []⟩, os') ∧
      os'.files = Function.update os.files path []) ∨
    (∃ os', os.fopen path = (none, os') ∧ os'.files = os.files) := by
  unfold Os.fopen
  split
  · exact .inl ⟨_, rfl, rfl⟩
  · exact .inr ⟨_, rfl, rfl⟩

/-- What `__init_thread` makes of the empty slot of `pid`. -/
structure Initialised (pid : Int) (os : Os) (t : ProfTinfo) (os' : Os) : Prop where
  tid : t.tid = pid
  nbRecord : t.nbRecord = 0
  running : t.state = .running → ∃ l, RunningSlot t l ⟨outfile pid, []⟩
  own : t.state = .running → os'.files (outfile pid) = []
  others : ∀ path, path ≠ outfile pid → os'.files path = os.files path
  emptied : ∀ path, os.files path = [] → os'.files path = []

theorem initTinfo_spec (info : ProfInfo) (pid : Int) (os : Os) :
    Initialised pid os (initTinfo info (.empty pid) os).1 (initTinfo info (.empty pid) os).2 := by
  obtain ⟨hcalls, hcase⟩ := createEvlist_spec info (.empty pid) os
  have hfiles := hcalls.files
  simp only [initTinfo]
  generalize createEvlist info (.empty pid) os = r at hfiles hcase ⊢
  obtain ⟨ret, t, os1⟩ := r
  simp only at hfiles hcase ⊢
  have hpos : 0 < profRecordCache := by decide
  have htid : (ProfTinfo.empty pid).tid = pid := rfl
  have hne : ∀ path, path ≠ outfile pid →
      Function.update os1.files (outfile pid) [] path = os.files path := by
    intro path hne
    rw [Function.update_of_ne hne, hfiles]
  have hnil : ∀ path, os.files path = [] →
      Function.update os1.files (outfile pid) [] path = [] := by
    intro path hp
    by_cases h : path = outfile pid
    · rw [h, Function.update_self]
    · rw [hne path h, hp]
  have hm1 : ((-1 : Int) = 0) = False := by decide
  rcases hcase with ⟨rfl, rfl⟩ | ⟨rfl, l, hl, rfl⟩
  · rcases fopen_cases os1 (outfile pid) with ⟨os2, h2, hf2⟩ | ⟨os2, h2, hf2⟩
    · simp only [ne_eq, hm1, not_false_eq_true, ↓reduceIte, htid, h2]
      exact ⟨rfl, rfl, fun h => (by cases h), fun h => (by cases h), fun path h => by
        rw [hf2, hne path h], fun path h => by rw [hf2, hnil path h]⟩
    · simp only [ne_eq, hm1, not_false_eq_true, ↓reduceIte, htid, h2]
      exact ⟨rfl, rfl, fun h => (by cases h), fun h => (by cases h), fun path _ => by
        rw [hf2, hfiles], fun path h => by rw [hf2, hfiles, h]⟩
  · rcases fopen_cases os1 (outfile pid) with ⟨os2, h2, hf2⟩ | ⟨os2, h2, hf2⟩
    · simp only [ne_eq, not_true_eq_false, ↓reduceIte, htid, h2]
      exact ⟨rfl, rfl, fun _ => ⟨l, rfl, rfl, rfl, rfl, hl, hpos⟩,
        fun _ => by rw [hf2, Function.update_self], fun path h => by rw [hf2, hne path h],
        fun path h => by rw [hf2, hnil path h]⟩
    · simp only [ne_eq, not_true_eq_false, ↓reduceIte, htid, h2]
      exact ⟨rfl, rfl, fun h => (by cases h), fun h => (by cases h), fun path _ => by
        rw [hf2, hfiles], fun path h => by rw [hf2, hfiles, h]⟩

/-! ## Registration -/

/-- `prof.%u` names different files for different threads. -/
theorem outfile_injective {x y : Int} (hx : 0 ≤ x ∧ x < 2 ^ 31) (hy : 0 ≤ y ∧ y < 2 ^ 31)
    (h : outfile x = outfile y) : x = y := by
  have hlen : ∀ z : Int, 0 ≤ z ∧ z < 2 ^ 31 →
      ("prof.".toList ++ decimal (z % 2 ^ 32).toNat).length < 64 := by
    intro z hz
    have hd : (decimal (z % 2 ^ 32).toNat).length ≤ 10 :=
      length_decimal_le (by decide) (by omega)
    rw [List.length_append, show ("prof.".toList).length = 5 by decide]
    omega
  unfold outfile at h
  rw [snprintf_of_length_lt (hlen x hx), snprintf_of_length_lt (hlen y hy),
    List.append_cancel_left_eq] at h
  have hmod := decimal_injective h
  omega

/-- Only the tid of a slot that is not initialised can be anything. -/
theorem TableOk.slot_stale {g : Proc} {id : Fin profThreadMax} (h : TableOk g)
    (hid : id ∉ g.inits) (tid : Int) : { g.slot id with tid := tid } = ProfTinfo.empty tid := by
  obtain ⟨old, -, he⟩ := h.fresh id hid
  rw [he]
  rfl

theorem Registers.initialised {g g' : Proc} {pid : Int} {id : Fin profThreadMax}
    (r : Registers g pid id g') (h : TableOk g) (hid : id ∉ g.inits) :
    Initialised pid g.os (g'.slot id) g'.os := by
  rw [r.slot_eq, r.os, h.slot_stale hid pid]
  exact initTinfo_spec g.info pid g.os

theorem Registers.tableOk {g g' : Proc} {pid : Int} {id : Fin profThreadMax}
    (r : Registers g pid id g') (h : TableOk g) (hid : id ∉ g.inits) : TableOk g' where
  running := by
    refine r.forall_slot (P := fun t => t.state = .running → ∃ l f, RunningSlot t l f)
      (fun hrun => ?_) h.running
    obtain ⟨l, hl⟩ := (r.initialised h hid).running hrun
    exact ⟨l, _, hl⟩
  fresh i hi := by
    rw [r.inits, List.mem_append, List.mem_singleton, not_or] at hi
    rw [r.slot_ne i hi.2]
    exact h.fresh i hi.1

/-- `__scan_threads` may leave a tid in such a slot. -/
theorem TableOk.stale {g : Proc} {id : Fin profThreadMax} {tid : Int} (h : TableOk g)
    (hid : id ∉ g.inits) (htid : tid ≤ 0) :
    TableOk (g.setSlot id { g.slot id with tid := tid }) := by
  rw [h.slot_stale hid tid]
  refine ⟨fun i hrun => ?_, fun i hi => ?_⟩
  · by_cases e : i = id
    · subst e
      rw [Proc.slot_setSlot_self] at hrun
      cases hrun
    · rw [Proc.slot_setSlot_ne _ _ e] at hrun ⊢
      exact h.running i hrun
  · by_cases e : i = id
    · subst e
      exact ⟨tid, htid, Proc.slot_setSlot_self _ _ _⟩
    · rw [Proc.slot_setSlot_ne _ _ e]
      exact h.fresh i hi

/-! ## `__scan_threads` -/

/-- What a property of the table needs to survive `__scan_threads`. -/
structure ScanRule (P : Proc → Prop) : Prop where
  register : ∀ {g g' : Proc} {pid : Int} {id : Fin profThreadMax}, SlotInv g →
    g.info.threadNb = id → Registers g pid id g' → ValidTid pid → P g → P g'
  stale : ∀ {g : Proc} {tid : Int} {id : Fin profThreadMax}, SlotInv g →
    g.info.threadNb = id → tid ≤ 0 → P g → P (g.setSlot id { g.slot id with tid := tid })

theorem validTid_atoi {name : CStr} (h : 0 < atoi name) : ValidTid (atoi name) :=
  ⟨h, by unfold atoi; exact Int.bmod_lt (by decide)⟩

theorem ScanRule.registerTid {P : Proc → Prop} (R : ScanRule P) {g g' : Proc} {pid : Int}
    (hpid : ValidTid pid) (h : SlotInv g) (hP : P g) (hg : registerTid pid g = .ok g') : P g' := by
  obtain ⟨id, hnid, hnb⟩ := h.next ((h.registerTid_ok_iff pid).1 ⟨g', hg⟩)
  obtain ⟨g1, h1, r⟩ := registerTid_ok pid hnid
  rw [h1] at hg
  cases hg
  exact R.register h hnb r hpid hP

theorem ScanRule.scanEntry {P : Proc → Prop} (R : ScanRule P) {g g' : Proc} {name : CStr}
    (h : SlotInv g) (hlt : g.info.threadNb < profThreadMax) (hP : P g)
    (hg : scanEntry g name = .ok g') : P g' := by
  obtain ⟨id, hnid, hnb⟩ := h.next hlt
  have hs := slotAt_eq hnid
  simp only [Probe.scanEntry, hs] at hg
  split at hg
  · rename_i hpos
    cases hg
    exact R.register h hnb (takeSlot_registers (atoi name) hnid) (validTid_atoi hpos) hP
  · rename_i hpos
    cases hg
    exact R.stale h hnb (by omega) hP

theorem ScanRule.scanEntries {P : Proc → Prop} (R : ScanRule P) :
    ∀ {names : List CStr} {g g' : Proc}, SlotInv g → P g → scanEntries g names = .ok g' → P g'
  | [], _, _, _, hP, hg => by
    cases hg
    exact hP
  | name :: names, g, g', h, hP, hg => by
    by_cases hlt : g.info.threadNb < profThreadMax
    · obtain ⟨g1, h1, hi1, -⟩ := h.scanEntry hlt name
      simp only [Probe.scanEntries, h1] at hg
      exact ScanRule.scanEntries R hi1 (R.scanEntry h hlt hP h1) hg
    · simp only [Probe.scanEntries, Probe.scanEntry, h.slotAt_full hlt] at hg
      cases hg

/-- A property with a `ScanRule` survives the scan of any directory. -/
theorem ScanRule.scanThreads {P : Proc → Prop} (R : ScanRule P) {g g' : Proc} {pid : Int}
    {namelist : Option (List CStr)} (hpid : ValidTid pid) (h : SlotInv g) (hP : P g)
    (hg : scanThreads pid namelist g = .ok g') : P g' := by
  rw [scanThreads_eq] at hg
  split at hg
  · exact R.registerTid hpid h hP hg
  · exact R.scanEntries h hP hg

/-! ## `lprobe_init` -/

/-- A registered slot in which nothing was recorded yet. -/
structure Idle (g : Proc) (i : Fin profThreadMax) : Prop where
  tid : ValidTid (g.slot i).tid
  nbRecord : (g.slot i).nbRecord = 0
  running : (g.slot i).state = .running →
    ∃ l, RunningSlot (g.slot i) l ⟨outfile (g.slot i).tid, []⟩
  file : (g.slot i).state = .running → g.os.files (outfile (g.slot i).tid) = []

/-- The table between `lprobe_init` and the first probe. -/
structure Booted (g : Proc) : Prop where
  table : TableOk g
  idle : ∀ i ∈ g.inits, Idle g i
  isError : g.info.isError = false
  flog : g.info.flog = none

theorem Initialised.idle {g g' : Proc} {pid : Int} {id : Fin profThreadMax} (hpid : ValidTid pid)
    (h : Initialised pid g.os (g'.slot id) g'.os) : Idle g' id where
  tid := by rw [h.tid]; exact hpid
  nbRecord := h.nbRecord
  running hrun := by rw [h.tid]; exact h.running hrun
  file hrun := by rw [h.tid]; exact h.own hrun

/-- Another registration leaves an idle slot idle, even one of the same tid. -/
theorem Idle.registers {g g' : Proc} {pid : Int} {i id : Fin profThreadMax} (h : Idle g i)
    (r : Registers g pid id g') (hi : i ≠ id) (ht : TableOk g) (hid : id ∉ g.inits) :
    Idle g' i := by
  have hinit := r.initialised ht hid
  refine ⟨?_, ?_, ?_, ?_⟩
  all_goals rw [r.slot_ne i hi]
  · exact h.tid
  · exact h.nbRecord
  · exact h.running
  · exact fun hrun => hinit.emptied _ (h.file hrun)

theorem scanRule_booted : ScanRule Booted where
  register {g g' pid id} hs hnb r hpid h := by
    have hid := hs.not_mem_inits hnb
    refine ⟨r.tableOk h.table hid, fun i hi => ?_, by rw [r.isError, h.isError],
      by rw [r.flog, h.flog]⟩
    by_cases he : i = id
    · subst he
      exact (r.initialised h.table hid).idle hpid
    · rw [r.inits, List.mem_append, List.mem_singleton, or_iff_left he] at hi
      exact (h.idle i hi).registers r he h.table hid
  stale {g tid id} hs hnb htid h := by
    have hid := hs.not_mem_inits hnb
    refine ⟨h.table.stale hid htid, fun i hi => ?_, h.isError, h.flog⟩
    have e : i ≠ id := fun e => hid (e ▸ hi)
    obtain ⟨h1, h2, h3, h4⟩ := h.idle i hi
    refine ⟨?_, ?_, ?_, ?_⟩ <;> rw [Proc.slot_setSlot_ne _ _ e] <;> assumption

/-- What a successful `lprobe_init` leaves: a booted table in which the main thread has its
slot. -/
structure InitOk (pid : Int) (tls : Tls) (g : Proc) : Prop extends SlotInv g, Booted g where
  lookup : findTinfo g.info pid = tls.threadinfo
  found : tls.threadinfo ≠ none
  heeds : tls.isIgnore = false

/-- `globalinfo` once `lprobe_init` has stored its arguments. -/
def Proc.configured (evlistStr : CStr) (minId maxId freq : Nat) (os : Os) : Proc :=
  { Proc.initial os with info := { globalinfo with
    maxIndex := maxId, minIndex := minId, sampleFreq := freq, evlistStr := some evlistStr } }

section

variable {evlistStr : CStr} {minId maxId freq : Nat} {pid r : Int} {mutexOk : Bool}
  {namelist : Option (List CStr)} {tls : Tls} {os : Os} {g : Proc}

theorem slotInv_configured : SlotInv (Proc.configured evlistStr minId maxId freq os) :=
  slotInv_initial rfl rfl rfl rfl

theorem booted_configured : Booted (Proc.configured evlistStr minId maxId freq os) :=
  ⟨⟨fun _ h => (by cases h), fun _ _ => ⟨0, le_refl _, rfl⟩⟩, fun _ h => (by cases h), rfl, rfl⟩

/-- An `lprobe_init` that returns succeeded: the failure path closes a log that is never open. -/
theorem lprobeInit_returns (hpid : ValidTid pid)
    (h : lprobeInit evlistStr minId maxId freq pid mutexOk namelist .initial (Proc.initial os) =
      .ok (r, tls, g)) :
    r = 0 ∧ scanThreads pid namelist (.configured evlistStr minId maxId freq os) = .ok g ∧
      findTinfo g.info pid = tls.threadinfo ∧ tls.threadinfo ≠ none ∧ tls.isIgnore = false := by
  have hfail : ∀ tls' g', g'.info.flog = none → failCloseLog tls' g' ≠ .ok (r, tls, g) := by
    intro tls' g' hflog hf
    simp [failCloseLog, hflog] at hf
  unfold lprobeInit at h
  dsimp only at h
  split at h
  · exact absurd h (hfail _ _ rfl)
  · split at h
    · cases h
    · rename_i g1 hg1
      have hb1 := scanRule_booted.scanThreads hpid slotInv_configured booted_configured hg1
      split at h
      · cases h
      · rename_i i hi
        split at h
        · exact absurd h (hfail _ _ hb1.flog)
        · cases h
          exact ⟨rfl, hg1, hi, by simp, rfl⟩

theorem lprobeInit_ok (hpid : ValidTid pid)
    (h : lprobeInit evlistStr minId maxId freq pid mutexOk namelist .initial (Proc.initial os) =
      .ok (0, tls, g)) : InitOk pid tls g := by
  obtain ⟨-, hscan, hfind, hne, hheeds⟩ := lprobeInit_returns hpid h
  have hb := scanRule_booted.scanThreads hpid slotInv_configured booted_configured hscan
  exact ⟨(slotInv_procInitial os).lprobeInit h, hb, hfind, hne, hheeds⟩

end

/-! ## Lookup -/

theorem findTinfo_eq_none {info : ProfInfo} {pid : Int} :
    findTinfo info pid = none ↔ ∀ i, (info.threads i).tid ≠ pid := by
  rw [findTinfo, ← Fin.find?_eq_find?_finRange, Fin.find?_eq_none_iff]
  simp

theorem findTinfo_eq_some {info : ProfInfo} {pid : Int} {i : Fin profThreadMax} :
    findTinfo info pid = some i ↔
      (info.threads i).tid = pid ∧ ∀ j < i, (info.threads j).tid ≠ pid := by
  rw [findTinfo, ← Fin.find?_eq_find?_finRange, Fin.find?_eq_some_iff]
  simp

theorem findTinfo_congr {info info' : ProfInfo} {pid : Int}
    (h : ∀ i, (info.threads i).tid = (info'.threads i).tid) :
    findTinfo info pid = findTinfo info' pid := by
  simp only [findTinfo, h]

/-- A slot a thread can find was registered. -/
theorem TableOk.mem_inits {g : Proc} (h : TableOk g) {i : Fin profThreadMax}
    (hi : 0 < (g.slot i).tid) : i ∈ g.inits := by
  by_contra hn
  obtain ⟨tid, htid, he⟩ := h.fresh i hn
  rw [he] at hi
  exact absurd hi (by simpa [ProfTinfo.empty] using htid)

theorem TableOk.mem_inits_of_running {g : Proc} (h : TableOk g) {i : Fin profThreadMax}
    (hi : (g.slot i).state = .running) : i ∈ g.inits := by
  by_contra hn
  obtain ⟨tid, -, he⟩ := h.fresh i hn
  rw [he] at hi
  cases hi

/-- A registration does not hide the slot another lookup finds. -/
theorem Registers.findTinfo_of_mem {g g' : Proc} {pid tid : Int} {id j : Fin profThreadMax}
    (r : Registers g pid id g') (h : SlotInv g) (hid : g.info.threadNb = id)
    (hj : findTinfo g.info tid = some j) (hmem : j ∈ g.inits) :
    findTinfo g'.info tid = some j := by
  have hlt : j < id := by
    rw [h.inits_mem, hid] at hmem
    exact hmem
  obtain ⟨htid, hmin⟩ := findTinfo_eq_some.1 hj
  refine findTinfo_eq_some.2 ⟨?_, fun k hk => ?_⟩
  · have hs := congrArg ProfTinfo.tid (r.slot_ne j hlt.ne)
    exact hs.trans htid
  · have hs := congrArg ProfTinfo.tid (r.slot_ne k (hk.trans hlt).ne)
    exact fun e => hmin k hk (hs.symm.trans e)

theorem Registers.findTinfo_of_ne {g g' : Proc} {pid tid : Int} {id : Fin profThreadMax}
    (r : Registers g pid id g') (h : TableOk g) (hid : id ∉ g.inits) (htid : 0 < tid)
    (hne : tid ≠ pid) : findTinfo g'.info tid = findTinfo g.info tid := by
  have hold : (g.slot id).tid ≠ tid := by
    obtain ⟨x, hx, he⟩ := h.fresh id hid
    rw [he]
    show x ≠ tid
    omega
  have hnew : (g'.slot id).tid ≠ tid := by
    rw [(r.initialised h hid).tid]
    exact hne.symm
  have hiff : ∀ i, (g'.slot i).tid = tid ↔ (g.slot i).tid = tid := by
    intro i
    by_cases hi : i = id
    · subst hi
      exact iff_of_false hnew hold
    · rw [r.slot_ne i hi]
  simp only [Proc.slot] at hiff
  cases hf : findTinfo g.info tid with
  | none => exact findTinfo_eq_none.2 fun i e => findTinfo_eq_none.1 hf i ((hiff i).1 e)
  | some j =>
    obtain ⟨htid, hmin⟩ := findTinfo_eq_some.1 hf
    exact findTinfo_eq_some.2 ⟨(hiff j).2 htid, fun k hk e => hmin k hk ((hiff k).1 e)⟩

/-- A thread whose tid is in no slot finds the one it is registered in. -/
theorem Registers.findTinfo_self {g g' : Proc} {pid : Int} {id : Fin profThreadMax}
    (r : Registers g pid id g') (h : TableOk g) (hid : id ∉ g.inits)
    (hnone : findTinfo g.info pid = none) : findTinfo g'.info pid = some id := by
  refine findTinfo_eq_some.2 ⟨(r.initialised h hid).tid, fun j hj => ?_⟩
  have hs := congrArg ProfTinfo.tid (r.slot_ne j hj.ne)
  exact fun e => findTinfo_eq_none.1 hnone j (hs.symm.trans e)

/-! ## Probes -/

/-- The records `rs` went to slot `i`, and nothing else in the table changed. -/
structure Extends (g : Proc) (i : Fin profThreadMax) (rs : List ProfRecord) (g' : Proc) :
    Prop where
  slot_ne : ∀ j, j ≠ i → g'.slot j = g.slot j
  slot : ∃ l f f', RunningSlot (g.slot i) l f ∧ RunningSlot (g'.slot i) l f' ∧
    Recorded (g.slot i) f g.os rs (g'.slot i) f' g'.os
  info : g'.info = { g.info with threads := g'.info.threads }
  inits : g'.inits = g.inits

theorem Extends.tid {g g' : Proc} {i : Fin profThreadMax} {rs : List ProfRecord}
    (h : Extends g i rs g') (j : Fin profThreadMax) : (g'.slot j).tid = (g.slot j).tid := by
  by_cases hj : j = i
  · subst hj
    obtain ⟨_, _, _, _, _, hrec⟩ := h.slot
    exact hrec.tid
  · rw [h.slot_ne j hj]

theorem Extends.findTinfo {g g' : Proc} {i : Fin profThreadMax} {rs : List ProfRecord}
    (h : Extends g i rs g') (tid : Int) : findTinfo g'.info tid = findTinfo g.info tid :=
  findTinfo_congr h.tid

theorem Extends.slotInv {g g' : Proc} {i : Fin profThreadMax} {rs : List ProfRecord}
    (h : Extends g i rs g') (hs : SlotInv g) : SlotInv g' := by
  have hnb : g'.info.threadNb = g.info.threadNb := by rw [h.info]
  have hnid : g'.info.threadNid = g.info.threadNid := by rw [h.info]
  refine ⟨by rw [hnb]; exact hs.nb_le, by rw [hnb, hnid]; exact hs.nid, fun j hj => ?_, fun j => ?_,
    by rw [h.inits]; exact hs.inits_nodup, by rw [h.inits, hnb]; exact hs.inits_length⟩
  · rw [h.tid]
    exact hs.free j (by rwa [hnb] at hj)
  · rw [h.inits, hnb]
    exact hs.inits_mem j

theorem Extends.tableOk {g g' : Proc} {i : Fin profThreadMax} {rs : List ProfRecord}
    (h : Extends g i rs g') (ht : TableOk g) : TableOk g' := by
  obtain ⟨l, f, f', hrun, hrun', -⟩ := h.slot
  refine ⟨fun j hj => ?_, fun j hj => ?_⟩
  · by_cases hji : j = i
    · subst hji
      exact ⟨l, f', hrun'⟩
    · rw [h.slot_ne j hji] at hj ⊢
      exact ht.running j hj
  · rw [h.inits] at hj
    have hji : j ≠ i := by
      rintro rfl
      obtain ⟨tid, -, he⟩ := ht.fresh j hj
      have hstate := hrun.state
      rw [he] at hstate
      cases hstate
    rw [h.slot_ne j hji]
    exact ht.fresh j hj

theorem extends_setSlot {g : Proc} {i : Fin profThreadMax} {l : ProfEvlist} {f f' : OutFile}
    {rs : List ProfRecord} {t' : ProfTinfo} {os' : Os} (hrun : RunningSlot (g.slot i) l f)
    (hrun' : RunningSlot t' l f') (hrec : Recorded (g.slot i) f g.os rs t' f' os') :
    Extends g i rs { g.setSlot i t' with os := os' } where
  slot_ne _ hj := Proc.slot_setSlot_ne g t' hj
  slot := by
    refine ⟨l, f, f', hrun, ?_⟩
    simpa only [Proc.slot, Proc.setSlot, Function.update_self] using ⟨hrun', hrec⟩
  info := rfl
  inits := rfl

/-- The slot `enterProbe` chooses is running. -/
theorem enterProbe_running {tid : Int} {tls tls' : Tls} {info : ProfInfo} {i : Fin profThreadMax}
    (h : enterProbe tid tls info = (tls', some i)) : (info.threads i).state = .running := by
  unfold enterProbe at h
  split at h
  · simp at h
  · dsimp only at h
    split at h
    · simp at h
    · split at h
      · rename_i hrun
        simp only [Prod.mk.injEq, Option.some.injEq] at h
        rw [← h.2]
        exact hrun
      · simp at h

/-- **A probe** does nothing, or appends the records of its call to the slot it looked up. -/
theorem lprobeFunc_spec {g : Proc} (h : TableOk g) (c : ProbeCall) (samples : Nat → PmcSample)
    (tid : Int) (tls : Tls) :
    ∃ g', lprobeFunc c samples tid tls g = .ok ((enterProbe tid tls g.info).1, g') ∧
      match (enterProbe tid tls g.info).2 with
      | none => g' = g
      | some i => ∃ l, (g.slot i).evlist = some l ∧
          Extends g i (callRecords c samples l.entries) g' := by
  rcases he : enterProbe tid tls g.info with ⟨tls', _ | i⟩
  · exact ⟨g, by simp only [lprobeFunc, he], rfl⟩
  · obtain ⟨l, f, hrun⟩ := h.running i (enterProbe_running he)
    obtain ⟨t', f', os', hr, hrun', hrec⟩ := readCount_spec hrun c samples g.os
    exact ⟨{ g.setSlot i t' with os := os' }, by simp only [lprobeFunc, he, hr], l, hrun.evlist,
      extends_setSlot hrun hrun' hrec⟩

end Lprofile.Probe
