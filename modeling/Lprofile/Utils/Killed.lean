import Lprofile.Probe.Delivery
import Lprofile.Utils.ReportText

/-!
# A process that is killed

`lprobe_exit` writes out what is left in the buffers. A process that is killed, or whose
object has no `_fini` to put the call of it in, ends without it, at any point of any of
its threads' calls. What `fwrite` was given by then are full buffers (`FullBuffers`), of
which stdio has passed on some part from the beginning.

The report of what is left has the records of the thread from the first on, without a gap
and none of them torn, and short of the last ones only (`killed_report`).
-/

namespace Lprofile.Utils

open Lprofile.Lib Lprofile.Probe

/-! ## Full buffers -/

/-- The bytes of a full `records` array. -/
def bufferBytes : Nat := profRecordCache * profRecordSize

/-- Nothing but full buffers went to the file of a running slot. -/
def FullBuffers (g : Proc) : Prop :=
  ∀ i l f, RunningSlot (g.slot i) l f → bufferBytes ∣ f.data.length

theorem length_recordBytes : ∀ rs : List ProfRecord,
    (recordBytes rs).length = rs.length * profRecordSize
  | [] => by simp
  | r :: rs => by
    rw [recordBytes_cons, List.length_append, length_bytes, length_recordBytes rs,
      List.length_cons, Nat.succ_mul, Nat.add_comm]

theorem length_buffer (t : ProfTinfo) : t.buffer.length = t.nbRecord := by
  simp [ProfTinfo.buffer]

/-- An event writes the whole buffer, or nothing. -/
theorem readEvent_data {c : ProbeCall} {i : Nat} {e : ProfEvsel} {sample : PmcSample}
    {t t' : ProfTinfo} {os os' : Os} {l l' : ProfEvlist} {f f' : OutFile}
    (hrun : RunningSlot t l f) (h : readEvent c i e sample t os = .ok (t', os'))
    (hrun' : RunningSlot t' l' f') (hfull : bufferBytes ∣ f.data.length) :
    bufferBytes ∣ f'.data.length := by
  have hfile' := hrun'.file
  unfold readEvent at h
  split at h
  · cases h
  · split at h
    · dsimp only at h
      split at h
      · rename_i hnb
        rw [hrun.file] at h
        cases h
        cases hfile'
        rw [Os.fwrite, List.length_append, length_recordBytes, length_buffer]
        dsimp only
        rw [hnb]
        exact Nat.dvd_add hfull (Nat.dvd_refl _)
      · cases h
        obtain rfl : f = f' := Option.some.inj (hrun.file.symm.trans hfile')
        exact hfull
    · cases h

theorem FullBuffers.start {pid : Int} {tls : Tls} {g : Proc} (h : InitOk pid tls g) :
    FullBuffers g := by
  intro i l f hrun
  have hi := h.idle i (h.table.mem_inits_of_running hrun.state)
  obtain ⟨l', hrun'⟩ := hi.running hrun.state
  obtain ⟨-, rfl⟩ := hrun.unique hrun'
  exact Nat.dvd_zero _

section

variable {h : List PipeStep} {s s' : PipeSt}

theorem FullBuffers.register (hb : FullBuffers s.proc) (hp : PipeOk h s) {tid : Int}
    (hs : pipeMachine.step s (.register tid) = .ok s') : FullBuffers s'.proc := by
  rcases lprobeThreadInit_cases hp.slots tid with ⟨hg, -⟩ | ⟨g, id, hg, -, hnb, r, -⟩
  · simp only [pipeMachine, hg] at hs
    cases hs
    exact hb
  · simp only [pipeMachine, hg] at hs
    cases hs
    intro i l f hrun
    by_cases hi : i = id
    · subst hi
      obtain ⟨l', hrun'⟩ :=
        (r.initialised hp.table (hp.slots.not_mem_inits hnb)).running hrun.state
      obtain ⟨-, rfl⟩ := hrun.unique hrun'
      exact Nat.dvd_zero _
    · dsimp only at hrun
      rw [r.slot_ne i hi] at hrun
      exact hb i l f hrun

theorem FullBuffers.event (hb : FullBuffers s.proc) (hp : PipeOk h s) {tid : Int}
    (hen : pipeMachine.Enabled s (.event tid)) (hs : pipeMachine.step s (.event tid) = .ok s') :
    FullBuffers s'.proc := by
  obtain ⟨b, hbusy⟩ := hen
  obtain ⟨l, f, hrun⟩ := hp.table.running b.slot (hp.busy tid b hbusy).2
  simp only [pipeMachine, hbusy, PipeSt.round, hrun.evlist] at hs
  split at hs
  · cases hs
    exact hb
  · split at hs
    · cases hs
    · rename_i r hr
      cases hs
      intro i l' f' hrun'
      by_cases hi : i = b.slot
      · subst hi
        have hslot : ({ s.proc.setSlot b.slot r.1 with os := r.2 } : Proc).slot b.slot = r.1 :=
          Proc.slot_setSlot_self s.proc b.slot r.1
        rw [hslot] at hrun'
        exact readEvent_data hrun hr hrun' (hb _ l f hrun)
      · have hslot : ({ s.proc.setSlot b.slot r.1 with os := r.2 } : Proc).slot i =
            s.proc.slot i := Proc.slot_setSlot_ne s.proc r.1 hi
        rw [hslot] at hrun'
        exact hb i l' f' hrun'

/-- **Every step before `lprobe_exit`** writes full buffers only. -/
theorem FullBuffers.step {a : PipeStep} (hb : FullBuffers s.proc) (hp : PipeOk h s)
    (ha : a ≠ .exit) (hen : pipeMachine.Enabled s a) (hs : pipeMachine.step s a = .ok s') :
    FullBuffers s'.proc := by
  cases a with
  | register tid => exact hb.register hp hs
  | enter tid call samples =>
    cases hs
    exact hb
  | event tid => exact hb.event hp hen hs
  | exit => exact absurd rfl ha

end

/-! ## What is left -/

/-- Records in full buffers and a buffer with room: where the full ones end. -/
theorem split_records {data : List Byte} {rest all : List ProfRecord}
    (hfull : bufferBytes ∣ data.length) (h : data ++ recordBytes rest = recordBytes all) :
    ∃ k, data = recordBytes (all.take (k * profRecordCache)) ∧
      all = all.take (k * profRecordCache) ++ rest ∧
      (all.take (k * profRecordCache)).length = k * profRecordCache := by
  obtain ⟨k, hk⟩ := hfull
  have hdata : data.length = k * profRecordCache * profRecordSize := by
    rw [hk, bufferBytes, Nat.mul_comm, Nat.mul_assoc]
  have hlen := congrArg List.length h
  rw [List.length_append, length_recordBytes, length_recordBytes, hdata, ← Nat.add_mul] at hlen
  have hall : k * profRecordCache ≤ all.length := by
    have := Nat.eq_of_mul_eq_mul_right (by decide : 0 < profRecordSize) hlen
    omega
  have htake := List.length_take_of_le hall
  rw [← List.take_append_drop (k * profRecordCache) all, recordBytes_append] at h
  obtain ⟨h₁, h₂⟩ := List.append_inj h (by rw [hdata, length_recordBytes, htake])
  refine ⟨k, h₁, ?_, htake⟩
  rw [recordBytes_injective h₂, List.take_append_drop]

/-- The file of a running slot: the records that were made, without the last incomplete buffer. -/
theorem file_of_stream {g : Proc} {i : Fin profThreadMax} {l : ProfEvlist} {f : OutFile}
    (hrun : RunningSlot (g.slot i) l f) (hown : FileOk g i) (hb : FullBuffers g)
    {left all : List ProfRecord}
    (hstream : (g.slot i).stream ++ recordBytes left = recordBytes all) :
    ∃ made, made ++ left = all ∧ g.os.files (outfile (g.slot i).tid) =
      recordBytes (made.take (made.length / profRecordCache * profRecordCache)) := by
  rw [hrun.stream_eq, List.append_assoc, ← recordBytes_append] at hstream
  obtain ⟨k, hdata, hall, hlen⟩ := split_records (hb i l f hrun) hstream
  refine ⟨all.take (k * profRecordCache) ++ (g.slot i).buffer, ?_, ?_⟩
  · rw [List.append_assoc]
    exact hall.symm
  · have hdiv : (all.take (k * profRecordCache) ++ (g.slot i).buffer).length / profRecordCache =
        k := by
      rw [List.length_append, hlen, length_buffer, Nat.add_comm,
        Nat.add_mul_div_right _ _ (by decide), Nat.div_eq_of_lt hrun.room, Nat.zero_add]
    rw [hdiv, List.take_left' hlen, ← hdata, ← hrun.path]
    exact hown l f hrun

/-- The report of a part of a file that begins where the file does. -/
theorem readReport_part (datafile : CStr) {rs : List ProfRecord} {disk : List Byte}
    (h : disk <+: recordBytes rs) :
    readReport (process false datafile (some disk)).2.stdout =
      some (rs.take (disk.length / profRecordSize)) := by
  have htake := process_take datafile rs disk.length
  rw [← List.prefix_iff_eq_take.1 h] at htake
  rw [htake, readReport_lines]

/-- **A process that is killed**, at any point of any interleaving of its threads. Of the records a
thread has made, what `fwrite` was given are those in full buffers; and whatever part of that has
reached the disk, its report has these records from the first on, one line for each that is there in
full. -/
theorem killed_report {pid : Int} {tls : Tls} {g : Proc} (hpid : ValidTid pid)
    (hinit : InitOk pid tls g)
    (hdist : ∀ i ∈ g.inits, ∀ j ∈ g.inits, (g.slot i).tid = (g.slot j).tid → i = j)
    {acts : List PipeStep} (hacts : ∀ a ∈ acts, a ≠ .exit)
    (hl : pipeMachine.Legal (.start pid tls g) acts) :
    ∃ s, pipeMachine.run (.start pid tls g) acts = .ok s ∧
      ∀ i l, (s.proc.slot i).state = .running → (s.proc.slot i).evlist = some l →
        let tid := (s.proc.slot i).tid
        let file := s.proc.os.files (outfile tid)
        ∃ made, made ++ pending l.entries (s.busy tid) =
            recordsOf l.entries (callsOf tid acts) ∧
          file = recordBytes (made.take (made.length / profRecordCache * profRecordCache)) ∧
          ∀ disk, disk <+: file →
            readReport (process false (outfile tid) (some disk)).2.stdout =
              some (made.take (disk.length / profRecordSize)) := by
  have h0 := PipeOk.start hinit hpid hdist
  obtain ⟨s, hs, hp, hb⟩ := hl.run_ok_on (P := fun h s => PipeOk h s ∧ FullBuffers s.proc)
    (fun h s a hP ha hen => by
      obtain ⟨s', hs', hp'⟩ := pipeOk_step hP.1 ha hen
      exact ⟨s', hs', hp', hP.2.step hP.1 ha hen hs'⟩)
    hacts ⟨h0, .start hinit⟩
  refine ⟨s, hs, fun i l hi hlist => ?_⟩
  obtain ⟨l', f, hrun⟩ := hp.table.running i hi
  obtain rfl : l = l' := Option.some.inj (hlist.symm.trans hrun.evlist)
  obtain ⟨made, hmade, hfile⟩ := file_of_stream hrun (hp.file i) hb (hp.stream i l f hrun)
  refine ⟨made, hmade, hfile, fun disk hdisk => ?_⟩
  rw [hfile] at hdisk
  have hlen := hdisk.length_le
  rw [length_recordBytes, List.length_take] at hlen
  have hcut : disk.length / profRecordSize ≤ made.length / profRecordCache * profRecordCache :=
    calc disk.length / profRecordSize
      _ ≤ min (made.length / profRecordCache * profRecordCache) made.length :=
        Nat.div_le_of_le_mul (by rwa [Nat.mul_comm])
      _ ≤ made.length / profRecordCache * profRecordCache := Nat.min_le_left _ _
  rw [readReport_part _ hdisk, List.take_take, Nat.min_eq_left hcut]

/-- Thread 200 is registered, and calls the entry probe of function 0 `n` times. -/
def sameCalls (n : Nat) : List PipeStep :=
  .register 200 ::
    (List.replicate n (callSteps 200 ⟨0, false, 1000⟩ (fun _ => closedPage) 1)).flatten

theorem run_sameCalls (n : Nat) :
    ∃ s l, pipeMachine.run pipeStart (sameCalls n) = .ok s ∧
      pipeMachine.Legal pipeStart (sameCalls n) ∧ Between 200 1 l s ∧ l.entries.length = 1 := by
  have hvalid : ValidTid 100 := ⟨by decide, by decide⟩
  have hstart : PipeOk [] pipeStart :=
    .start (lprobeInit_ok hvalid soloInit_eq) hvalid (by decide)
  have hen : pipeMachine.Enabled pipeStart (.register 200) :=
    ⟨rfl, ⟨by decide, by decide⟩, by decide⟩
  obtain ⟨s, hs, hp⟩ := hstart.register hen
  have hslot : s.busy 200 = none ∧ (s.proc.slot 1).tid = 200 ∧
      (s.proc.slot 1).state = .running ∧
      ∃ l, (s.proc.slot 1).evlist = some l ∧ l.entries.length = 1 := by
    cases hs
    exact ⟨rfl, rfl, rfl, _, rfl, rfl⟩
  obtain ⟨hbusy, htid, hrun, l, hl, hlen⟩ := hslot
  have hbetween : Between 200 1 l s := ⟨⟨_, hp⟩, hbusy, htid, hrun, hl⟩
  obtain ⟨s', hs', hlegal, hend⟩ := hbetween.calls ⟨0, false, 1000⟩ (fun _ => closedPage) n
  rw [hlen] at hs' hlegal
  exact ⟨s', l, (Machine.run_cons_ok hs).trans hs', .cons hen hs hlegal, hend, hlen⟩

/-- Thread 200 has made one record more than a buffer holds when the process is killed: the full
buffer is in its file, and 2500 bytes of that on the disk make a report of 104 records. -/
theorem killed_report_flushed :
    ∃ (s : PipeSt) (made : List ProfRecord),
      pipeMachine.run pipeStart (sameCalls (profRecordCache + 1)) = .ok s ∧
      made.length = profRecordCache + 1 ∧
      s.proc.os.files (outfile 200) = recordBytes (made.take profRecordCache) ∧
      readReport (process false (outfile 200)
        (some ((s.proc.os.files (outfile 200)).take 2500))).2.stdout = some (made.take 104) := by
  have hvalid : ValidTid 100 := ⟨by decide, by decide⟩
  obtain ⟨s', l, hs', hlegal, hbetween, hlen⟩ := run_sameCalls (profRecordCache + 1)
  have hacts : ∀ a ∈ sameCalls (profRecordCache + 1), a ≠ .exit := by
    rintro a ha rfl
    simp [sameCalls, callSteps, List.mem_flatten] at ha
  obtain ⟨s, hs, hkilled⟩ := @killed_report 100 _ _ hvalid (lprobeInit_ok hvalid soloInit_eq)
    (by decide) _ hacts hlegal
  obtain rfl := Except.ok.inj (hs.symm.trans hs')
  obtain ⟨made, hmade, hfile, hreport⟩ := hkilled 1 l hbetween.running hbetween.evlist
  rw [hbetween.tid, hbetween.idle, pending, List.append_nil] at hmade
  have hcalls : callsOf 200 (sameCalls (profRecordCache + 1)) =
      List.replicate (profRecordCache + 1) (⟨0, false, 1000⟩, fun _ => closedPage) :=
    callsOf_calls ..
  have hmany : made.length = profRecordCache + 1 := by
    rw [hmade, length_recordsOf, hcalls, List.length_replicate, hlen, Nat.mul_one]
  have hfull : made.length / profRecordCache * profRecordCache = profRecordCache := by
    rw [hmany]
    decide
  rw [hbetween.tid] at hfile hreport
  rw [hfull] at hfile
  refine ⟨s, made, hs, hmany, hfile, ?_⟩
  have hcut : ((s.proc.os.files (outfile 200)).take 2500).length / profRecordSize = 104 := by
    rw [hfile, List.length_take, length_recordBytes, List.length_take, hmany]
    decide
  rw [hreport _ (List.take_prefix ..), hcut]

end Lprofile.Utils
