import Lprofile.Probe.Rescan
import Lprofile.Probe.StartList
import Lprofile.Probe.Table

/-!
# The outcome of `lprobe_init`

`lprobe_init` scans the tasks of the process and looks for the slot of its main
thread. It takes for granted that there is one, and its failure path closes a
log that is never open, so that only success has an outcome: the main thread is
among the tasks registered, and its events and its file could be opened
(`init_outcome_iff`).
-/

namespace Lprofile.Probe

open Lprofile.Lib

/-- The slot of `pid` is running. -/
def MasterRuns (pid : Int) (g : Proc) : Prop :=
  ∃ i, findTinfo g.info pid = some i ∧ (g.slot i).state = .running

/-- `lprobe_init` returns 0 exactly when the slot of `pid` is running, and otherwise -1 with
`is_error` set. -/
def InitOutcome (pid : Int) (r : Except Fault (Int × Tls × Proc)) : Prop :=
  ∃ ret tls g, r = .ok (ret, tls, g) ∧ (ret = 0 ↔ MasterRuns pid g) ∧
    (¬ MasterRuns pid g → ret = -1 ∧ g.info.isError = true)

/-- The system grants what `__init_thread` asks for: the descriptors of the events, and the file. -/
structure ThreadStarts (evlistStr : CStr) (tid : Int) (os : Os) : Prop where
  text : evlistStr ≠ []
  events : ¬ OpenRefused (callsSince os
    (profEvlistStart (profEvlistAddFromStr (profEvlistNew tid) (some evlistStr)).2 os).2.2)
  file : ((profEvlistStart (profEvlistAddFromStr (profEvlistNew tid)
    (some evlistStr)).2 os).2.2.fopen (outfile tid)).1 ≠ none

/-- `g'` is the table when the scan that starts at `g` comes to the main thread. -/
def MasterTurn (pid : Int) (namelist : Option (List CStr)) (g g' : Proc) : Prop :=
  (scanItems namelist = [] ∧ g' = g) ∨
    ∃ pre name post, scanItems namelist = pre ++ name :: post ∧ (∀ n ∈ pre, atoi n ≠ pid) ∧
      atoi name = pid ∧ scanEntries g pre = .ok g'

/-! ## `__init_thread` -/

theorem profEvlistAddFromStr_neg_iff (evlist : ProfEvlist) (str : CStr) :
    (profEvlistAddFromStr evlist (some str)).1 < 0 ↔ str = [] := by
  simp only [profEvlistAddFromStr, List.length_eq_zero_iff]
  by_cases h : str = []
  · simp [h]
  · simp only [h, ↓reduceIte, iff_false, not_lt]
    split
    · exact Int.natCast_nonneg _
    · exact Int.natCast_nonneg _

theorem createEvlist_eq_zero_iff {info : ProfInfo} {evlistStr : CStr}
    (h : info.evlistStr = some evlistStr) (t : ProfTinfo) (os : Os) :
    let s := profEvlistStart (profEvlistAddFromStr (profEvlistNew t.tid) (some evlistStr)).2 os
    ((createEvlist info t os).1 = 0 ↔ evlistStr ≠ [] ∧ ¬ OpenRefused (callsSince os s.2.2)) ∧
      ((createEvlist info t os).1 = 0 → (createEvlist info t os).2.2 = s.2.2) := by
  intro s
  unfold createEvlist
  dsimp only
  rw [h]
  split
  · rename_i hneg
    rw [profEvlistAddFromStr_neg_iff] at hneg
    exact ⟨iff_of_false (by simp) fun hc => hc.1 hneg, fun h => absurd h (by simp)⟩
  · rename_i hneg
    rw [profEvlistAddFromStr_neg_iff] at hneg
    split
    · rename_i hs
      rw [profEvlistStart_neg_iff] at hs
      exact ⟨iff_of_false (by simp) fun hc => hc.2 hs, fun h => absurd h (by simp)⟩
    · rename_i hs
      rw [profEvlistStart_neg_iff] at hs
      exact ⟨iff_of_true rfl ⟨hneg, hs⟩, fun _ => rfl⟩

/-- `__init_thread` leaves the slot running or in error. -/
theorem initTinfo_state (info : ProfInfo) (tid : Int) (os : Os) :
    (initTinfo info (.empty tid) os).1.state = .running ∨
      (initTinfo info (.empty tid) os).1.state = .error := by
  obtain ⟨-, hcase⟩ := createEvlist_spec info (.empty tid) os
  unfold initTinfo
  dsimp only
  generalize createEvlist info (.empty tid) os = r at hcase ⊢
  rcases hcase with ⟨h1, -⟩ | ⟨h1, l, -, ht⟩
  · rw [h1, if_pos (by decide)]
    split
    · exact .inr rfl
    · exact .inr rfl
  · rw [h1, if_neg (by decide), ht]
    split
    · exact .inl rfl
    · exact .inr rfl

theorem initTinfo_running_iff {info : ProfInfo} {evlistStr : CStr}
    (h : info.evlistStr = some evlistStr) (tid : Int) (os : Os) :
    (initTinfo info (.empty tid) os).1.state = .running ↔ ThreadStarts evlistStr tid os := by
  obtain ⟨-, hcase⟩ := createEvlist_spec info (.empty tid) os
  obtain ⟨hzero, hos⟩ := createEvlist_eq_zero_iff h (.empty tid) os
  have htid : (ProfTinfo.empty tid).tid = tid := rfl
  rw [htid] at hzero hos
  unfold initTinfo
  dsimp only
  generalize createEvlist info (.empty tid) os = r at hcase hzero hos ⊢
  rcases hcase with ⟨h1, -⟩ | ⟨h1, l, -, ht⟩
  · rw [h1, if_pos (by decide)]
    refine iff_of_false ?_ fun hstart => ?_
    · split
      · exact fun h => (by cases h)
      · exact fun h => (by cases h)
    · have hz := hzero.2 ⟨hstart.text, hstart.events⟩
      rw [h1] at hz
      cases hz
  · obtain ⟨htext, hevents⟩ := hzero.1 h1
    rw [h1, if_neg (by decide), ht, hos h1]
    dsimp only
    rw [htid]
    split
    · rename_i f os' hf
      exact iff_of_true rfl ⟨htext, hevents, by rw [hf]; simp⟩
    · rename_i os' hf
      exact iff_of_false (fun h => (by cases h)) fun hstart => hstart.file (by rw [hf])

/-! ## The scan -/

/-- The slot a lookup finds stays the one it finds. -/
theorem KeepsSlots.findTinfo {g g' : Proc} (hk : KeepsSlots g g') (h : SlotInv g) {pid : Int}
    {j : Fin profThreadMax} (hj : findTinfo g.info pid = some j) (hmem : j ∈ g.inits) :
    findTinfo g'.info pid = some j := by
  obtain ⟨htid, hmin⟩ := findTinfo_eq_some.1 hj
  have hslot : ∀ k ≤ j, (g'.info.threads k).tid = (g.info.threads k).tid := by
    intro k hle
    have hk' : k ∈ g.inits := by
      rw [h.inits_mem] at hmem ⊢
      exact Nat.lt_of_le_of_lt hle hmem
    exact congrArg ProfTinfo.tid (hk k hk').2
  refine findTinfo_eq_some.2 ⟨(hslot j le_rfl).trans htid, fun k hlt e => ?_⟩
  exact hmin k hlt ((hslot k hlt.le).symm.trans e)

/-- Entries of other threads do not register `pid`. -/
theorem scanEntries_others {pid : Int} (hpid : 0 < pid) :
    ∀ {names : List CStr} {g g' : Proc}, SlotInv g → TableOk g → (∀ n ∈ names, atoi n ≠ pid) →
      findTinfo g.info pid = none → scanEntries g names = .ok g' →
      TableOk g' ∧ findTinfo g'.info pid = none
  | [], g, g', _, ht, _, hnone, hg => by
    cases hg
    exact ⟨ht, hnone⟩
  | name :: names, g, g', h, ht, hne, hnone, hg => by
    obtain ⟨hname, hne⟩ := List.forall_mem_cons.1 hne
    by_cases hlt : g.info.threadNb < profThreadMax
    · obtain ⟨g1, h1, hi1, -⟩ := h.scanEntry hlt name
      have hstep : TableOk g1 ∧ findTinfo g1.info pid = none := by
        obtain ⟨id, hnid, hnb⟩ := h.next hlt
        have hid := h.not_mem_inits hnb
        simp only [scanEntry, slotAt_eq hnid] at h1
        split at h1
        · cases h1
          have r := takeSlot_registers (atoi name) hnid
          refine ⟨r.tableOk ht hid, ?_⟩
          rw [r.findTinfo_of_ne ht hid hpid (Ne.symm hname)]
          exact hnone
        · rename_i hpos
          cases h1
          refine ⟨ht.stale hid (by omega), findTinfo_eq_none.2 fun i e => ?_⟩
          by_cases hi : i = id
          · have hself := congrArg ProfTinfo.tid
              (Proc.slot_setSlot_self g id { g.slot id with tid := atoi name })
            rw [hi] at e
            exact hname (hself.symm.trans e)
          · have hold := congrArg ProfTinfo.tid
              (Proc.slot_setSlot_ne g { g.slot id with tid := atoi name } hi)
            exact findTinfo_eq_none.1 hnone i (hold.symm.trans e)
      simp only [scanEntries, h1] at hg
      exact scanEntries_others hpid hi1 hstep.1 hne hstep.2 hg
    · simp only [scanEntries, scanEntry, h.slotAt_full hlt] at hg
      cases hg

/-- The slot `pid` is registered in is the one found for it, whatever is registered later. -/
theorem Registers.found_later {g g1 g' : Proc} {pid : Int} {id : Fin profThreadMax}
    (r : Registers g pid id g1) (h : SlotInv g) (ht : TableOk g) (hnb : g.info.threadNb = id)
    (hnone : findTinfo g.info pid = none) (hk : KeepsSlots g1 g') :
    findTinfo g'.info pid = some id ∧ g'.slot id = (initTinfo g.info (.empty pid) g.os).1 := by
  have hid := h.not_mem_inits hnb
  have hmem : id ∈ g1.inits := by
    rw [r.inits]
    exact List.mem_append_right _ (List.mem_singleton_self id)
  refine ⟨hk.findTinfo (r.slotInv h hnb) (r.findTinfo_self ht hid hnone) hmem, ?_⟩
  rw [(hk id hmem).2, r.slot_eq, ht.slot_stale hid pid]

theorem scanEntries_append (g : Proc) : ∀ xs ys : List CStr,
    scanEntries g (xs ++ ys) =
      match scanEntries g xs with
      | .ok g' => scanEntries g' ys
      | .error f => .error f
  | [], _ => rfl
  | x :: xs, ys => by
    simp only [List.cons_append, scanEntries]
    cases scanEntry g x with
    | ok g1 => exact scanEntries_append g1 xs ys
    | error f => rfl

theorem scanRule_evlistStr (s : Option CStr) : ScanRule fun g => g.info.evlistStr = s where
  register _ _ r _ h := by
    rw [r.evlistStr]
    exact h
  stale _ _ _ h := h

/-- A table without threads, on which `lprobe_init` starts its scan. -/
structure ScanStart (pid : Int) (g : Proc) : Prop where
  slots : SlotInv g
  table : TableOk g
  empty : g.info.threadNb = 0
  lookup : findTinfo g.info pid = none

variable {pid : Int} {namelist : Option (List CStr)} {g g1 : Proc}

/-- The slot found for `pid` after the scan is what `__init_thread` made of it at its turn. -/
theorem ScanStart.scanThreads_found (h : ScanStart pid g) (hpid : 0 < pid)
    (hturn : MasterTurn pid namelist g g1) :
    ∃ g' i, scanThreads pid namelist g = .ok g' ∧ findTinfo g'.info pid = some i ∧
      g'.slot i = (initTinfo g1.info (.empty pid) g1.os).1 := by
  obtain ⟨g', hg', hi'⟩ := h.slots.scanThreads h.empty pid namelist
  have hscan := hg'
  rw [scanThreads_eq] at hscan
  rcases hturn with ⟨hnil, rfl⟩ | ⟨pre, name, post, hitems, hpre, hname, h1⟩
  · rw [if_pos hnil] at hscan
    obtain ⟨id, hnid, hnb⟩ := h.slots.next (by rw [h.empty]; decide)
    obtain ⟨g2, h2, r⟩ := registerTid_ok pid hnid
    rw [h2] at hscan
    cases hscan
    exact ⟨_, id, hg', r.found_later h.slots h.table hnb h.lookup fun i hi => ⟨hi, rfl⟩⟩
  · rw [if_neg (by rw [hitems]; simp), hitems, scanEntries_append, h1] at hscan
    obtain ⟨hs1, -⟩ := h.slots.scanEntries_keeps h1
    obtain ⟨ht1, hnone1⟩ := scanEntries_others hpid h.slots h.table hpre h.lookup h1
    by_cases hlt : g1.info.threadNb < profThreadMax
    · obtain ⟨id, hnid, hnb⟩ := hs1.next hlt
      have r := takeSlot_registers pid hnid
      simp only [scanEntries, scanEntry, slotAt_eq hnid, hname, if_pos hpid] at hscan
      obtain ⟨-, hk⟩ := (r.slotInv hs1 hnb).scanEntries_keeps hscan
      exact ⟨g', id, hg', r.found_later hs1 ht1 hnb hnone1 hk⟩
    · simp only [scanEntries, scanEntry, hs1.slotAt_full hlt] at hscan
      cases hscan

/-- The main thread of a process has its turn unless it is not listed. -/
theorem ScanStart.masterTurn_of_mem (h : ScanStart pid g) {name : CStr}
    (hmem : name ∈ scanItems namelist) (hname : atoi name = pid) :
    ∃ g1, MasterTurn pid namelist g g1 := by
  obtain ⟨x, hx⟩ := Option.isSome_iff_exists.1
    (List.find?_isSome (p := fun n => decide (atoi n = pid)).2 ⟨name, hmem, by simpa using hname⟩)
  obtain ⟨hp, pre, post, hitems, hpre⟩ := List.find?_eq_some_iff_append.1 hx
  have hlen := length_scanItems_le namelist
  rw [hitems, List.length_append] at hlen
  have hfits : g.info.threadNb + pre.length ≤ profThreadMax := by rw [h.empty]; omega
  obtain ⟨g1, h1, -⟩ := h.slots.scanEntries hfits
  refine ⟨g1, .inr ⟨pre, x, post, hitems, fun n hn => ?_, by simpa using hp, h1⟩⟩
  simpa using hpre n hn

theorem ScanStart.scanThreads_missing (h : ScanStart pid g) (hpid : 0 < pid)
    (hturn : ¬ ∃ g1, MasterTurn pid namelist g g1) :
    ∃ g', scanThreads pid namelist g = .ok g' ∧ findTinfo g'.info pid = none := by
  obtain ⟨g', hg', -⟩ := h.slots.scanThreads h.empty pid namelist
  have hscan := hg'
  rw [scanThreads_eq, if_neg fun hnil => hturn ⟨g, .inl ⟨hnil, rfl⟩⟩] at hscan
  have hother : ∀ n ∈ scanItems namelist, atoi n ≠ pid :=
    fun n hn e => hturn (h.masterTurn_of_mem hn e)
  exact ⟨g', hg', (scanEntries_others hpid h.slots h.table hother h.lookup hscan).2⟩

/-! ## `lprobe_init` -/

section

variable {evlistStr : CStr} {minId maxId freq : Nat} {tls : Tls} {os : Os}

theorem scanStart_configured (hpid : 0 < pid) :
    ScanStart pid (Proc.configured evlistStr minId maxId freq os) := by
  refine ⟨slotInv_configured, booted_configured.table, rfl, findTinfo_eq_none.2 fun i e => ?_⟩
  have h0 : (0 : Int) = pid := e
  omega

theorem MasterTurn.evlistStr_eq
    (h : MasterTurn pid namelist (Proc.configured evlistStr minId maxId freq os) g1) :
    g1.info.evlistStr = some evlistStr := by
  rcases h with ⟨-, rfl⟩ | ⟨pre, name, post, hitems, -, -, h1⟩
  · rfl
  · exact (scanRule_evlistStr (some evlistStr)).scanEntries slotInv_configured rfl h1

/-- `lprobe_init` once its mutex is initialised. -/
theorem lprobeInit_eq :
    lprobeInit evlistStr minId maxId freq pid true namelist tls (Proc.initial os) =
    match scanThreads pid namelist (Proc.configured evlistStr minId maxId freq os) with
    | .error f => .error f
    | .ok g =>
      match findTinfo g.info pid with
      | none => .error .nullTinfo
      | some i =>
        if (g.slot i).state = .error then
          failCloseLog { tls with threadid := pid, threadinfo := some i } g
        else .ok (0, { tls with threadid := pid, threadinfo := some i }, g) :=
  rfl

theorem not_initOutcome_error (f : Fault) : ¬ InitOutcome pid (.error f) := by
  rintro ⟨ret, tls, g, h, -⟩
  cases h

/-- With the main thread among those scanned, everything depends on its `__init_thread`. -/
theorem initOutcome_of_turn (hpid : ValidTid pid)
    (hturn : MasterTurn pid namelist (Proc.configured evlistStr minId maxId freq os) g1) :
    InitOutcome pid
        (lprobeInit evlistStr minId maxId freq pid true namelist tls (Proc.initial os)) ↔
      ThreadStarts evlistStr pid g1.os := by
  obtain ⟨g', i, hg', hfind, hslot⟩ :=
    (scanStart_configured hpid.pos).scanThreads_found hpid.pos hturn
  have hflog := (scanRule_booted.scanThreads hpid slotInv_configured booted_configured hg').flog
  rw [← initTinfo_running_iff hturn.evlistStr_eq pid g1.os, ← hslot]
  simp only [lprobeInit_eq, hg', hfind]
  rcases initTinfo_state g1.info pid g1.os with hrun | herr
  · rw [hslot, hrun, if_neg (fun h => (by cases h))]
    refine iff_of_true ⟨0, _, g', rfl, ?_, fun hno => ?_⟩ rfl
    · exact iff_of_true rfl ⟨i, hfind, by rw [hslot, hrun]⟩
    · exact absurd ⟨i, hfind, by rw [hslot, hrun]⟩ hno
  · rw [hslot, herr, if_pos rfl]
    refine iff_of_false ?_ (fun h => (by cases h))
    simp only [failCloseLog, hflog]
    exact not_initOutcome_error _

/-- The tasks of process 100. The main thread is not the first that is listed. -/
def laterTasks : Option (List CStr) := some ["98".toList, "100".toList, "101".toList]

def laterInit : Except Fault (Int × Tls × Proc) :=
  lprobeInit "cpu-cycles".toList 0 0 0 100 true laterTasks .initial
    (Proc.initial (Os.boot .granting))

def laterProc : Proc :=
  match laterInit with
  | .ok r => r.2.2
  | .error _ => Proc.initial (Os.boot .granting)

theorem laterInit_eq : laterInit = .ok (0, ⟨some 1, false, 100⟩, laterProc) := rfl

/-- A kernel that refuses every event with `EACCES`. -/
def Kernel.refusing : Kernel :=
  { Kernel.granting with perfEventOpen := fun _ => .error ⟨13, by decide⟩ }

end

end Lprofile.Probe
