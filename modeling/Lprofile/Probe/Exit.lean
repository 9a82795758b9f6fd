import Lprofile.Probe.Table

/-!
# `lprobe_exit`

`lprobe_exit` runs `__destroy_tinfo` on every running slot: what waits in the
buffer goes to the file, so the file ends up as the stream of the slot. The
slots have different files, so no one's data is touched by another slot's turn
(`lprobeExit_spec`). On a table without running slots it does nothing to the
files (`lprobeExit_idle`), so calling it again is harmless.
-/

namespace Lprofile.Probe

open Lprofile.Lib

/-- The file of a slot holds what was written through its handle. -/
def FileOk (g : Proc) (i : Fin profThreadMax) : Prop :=
  ∀ l f, RunningSlot (g.slot i) l f → g.os.files f.path = f.data

/-- Running slots have different files, and tids that are not -1. -/
structure Apart (g : Proc) : Prop where
  tid : ∀ i, (g.slot i).state = .running → 0 < (g.slot i).tid
  file : ∀ i j, (g.slot i).state = .running → (g.slot j).state = .running → i ≠ j →
    outfile (g.slot i).tid ≠ outfile (g.slot j).tid

/-! ## One slot -/

theorem destroyTinfo_spec {t : ProfTinfo} {l : ProfEvlist} {f : OutFile} {os : Os}
    (h : RunningSlot t l f) (hown : os.files f.path = f.data) :
    (destroyTinfo t os).1.state = .uninit ∧
      (destroyTinfo t os).2.files = Function.update os.files (outfile t.tid) t.stream := by
  have hown' : os.files (outfile t.tid) = f.data := by rw [← h.path, hown]
  refine ⟨rfl, ?_⟩
  have hdelete : ∀ os' : Os, (profEvlistDelete l os').files = os'.files :=
    fun os' => (eventCalls_profEvlistDelete l os').files
  simp only [destroyTinfo, h.file]
  by_cases hnb : 0 < t.nbRecord
  · simp only [hnb, ↓reduceIte, h.evlist, hdelete, Os.fclose, Os.files_log, Os.fwrite, h.path,
      hown', writeAt_end, h.stream_eq]
  · have hbuf : t.buffer = [] := by
      simp [ProfTinfo.buffer, Nat.eq_zero_of_not_pos hnb]
    simp only [hnb, ↓reduceIte, h.evlist, hdelete, Os.fclose, Os.files_log, h.stream_eq, hbuf,
      recordBytes_nil, List.append_nil, ← hown', Function.update_eq_self]

/-- One round of the loop on a running slot. -/
theorem exitSlot_running {g : Proc} {i : Fin profThreadMax} {l : ProfEvlist} {f : OutFile}
    (h : RunningSlot (g.slot i) l f) (htid : 0 < (g.slot i).tid) (hown : FileOk g i) :
    ((exitSlot g i).slot i).state = .uninit ∧
      (∀ j, j ≠ i → (exitSlot g i).slot j = g.slot j) ∧
      (exitSlot g i).os.files =
        Function.update g.os.files (outfile (g.slot i).tid) (g.slot i).stream := by
  have hne : (g.slot i).tid ≠ -1 := by omega
  obtain ⟨hstate, hfiles⟩ := destroyTinfo_spec h (hown l f h)
  simp only [exitSlot, hne, h.state, ↓reduceIte]
  refine ⟨?_, fun j hj => ?_, hfiles⟩
  · exact (congrArg ProfTinfo.state (Proc.slot_setSlot_self g i _)).trans hstate
  · exact Proc.slot_setSlot_ne g _ hj

theorem exitSlot_idle {g : Proc} {i : Fin profThreadMax} (h : (g.slot i).state ≠ .running) :
    exitSlot g i = g := by
  unfold exitSlot
  split
  · rfl
  · rfl

/-! ## The table -/

/-- What the loop has done after the slots `is`. -/
structure Exited (g : Proc) (is : List (Fin profThreadMax)) (g' : Proc) : Prop where
  done : ∀ i ∈ is, (g'.slot i).state ≠ .running
  rest : ∀ i, i ∉ is → g'.slot i = g.slot i
  written : ∀ i ∈ is, (g.slot i).state = .running →
    g'.os.files (outfile (g.slot i).tid) = (g.slot i).stream
  others : ∀ path, (∀ i ∈ is, (g.slot i).state = .running → path ≠ outfile (g.slot i).tid) →
    g'.os.files path = g.os.files path

section

variable {g g' : Proc} {is : List (Fin profThreadMax)} {i : Fin profThreadMax}

/-- A running slot is destroyed; its file is no other slot's. -/
theorem Exited.running (h : Exited g is g') (hi : i ∉ is) (ht : TableOk g) (ha : Apart g)
    (hf : FileOk g i) (hrun : (g.slot i).state = .running) :
    Exited g (is ++ [i]) (exitSlot g' i) := by
  obtain ⟨h1, h2, h3, h4⟩ := h
  have hslot := h2 i hi
  obtain ⟨l, f, hrs⟩ := ht.running i hrun
  have hown : FileOk g' i := by
    intro l' f' hrs'
    rw [hslot] at hrs'
    rw [← hf l' f' hrs', hrs'.path]
    exact h4 _ fun j hj hjrun => ha.file i j hrun hjrun fun e => hi (e ▸ hj)
  rw [← hslot] at hrs
  obtain ⟨hstate, hother, hfiles⟩ := exitSlot_running hrs (hslot ▸ ha.tid i hrun) hown
  rw [hslot] at hfiles
  refine ⟨fun j hj => ?_, fun j hj => ?_, fun j hj hjrun => ?_, fun path hp => ?_⟩
  · by_cases hji : j = i
    · subst hji
      rw [hstate]
      simp
    · rw [hother j hji]
      exact h1 j (by simpa [hji] using hj)
  · rw [List.mem_append, List.mem_singleton, not_or] at hj
    rw [hother j hj.2]
    exact h2 j hj.1
  · rw [hfiles]
    by_cases hji : j = i
    · subst hji
      rw [Function.update_self]
    · rw [Function.update_of_ne (ha.file j i hjrun hrun hji)]
      exact h3 j (by simpa [hji] using hj) hjrun
  · rw [hfiles, Function.update_of_ne (hp i (by simp) hrun)]
    exact h4 path fun j hj => hp j (by simp [hj])

theorem Exited.idle (h : Exited g is g') (hi : i ∉ is) (hrun : (g.slot i).state ≠ .running) :
    Exited g (is ++ [i]) (exitSlot g' i) := by
  obtain ⟨h1, h2, h3, h4⟩ := h
  have hslot := h2 i hi
  rw [exitSlot_idle (by rwa [hslot])]
  refine ⟨fun j hj => ?_, fun j hj => ?_, fun j hj hjrun => ?_, fun path hp => ?_⟩
  · by_cases hji : j = i
    · subst hji
      rwa [hslot]
    · exact h1 j (by simpa [hji] using hj)
  · rw [List.mem_append, List.mem_singleton, not_or] at hj
    exact h2 j hj.1
  · have hji : j ≠ i := fun e => hrun (e ▸ hjrun)
    exact h3 j (by simpa [hji] using hj) hjrun
  · exact h4 path fun j hj => hp j (by simp [hj])

theorem exitSlots_spec (ht : TableOk g) (ha : Apart g) (hf : ∀ i, FileOk g i) (hnd : is.Nodup) :
    Exited g is (is.foldl exitSlot g) := by
  induction is using List.reverseRecOn with
  | nil => exact ⟨fun _ h => (by cases h), fun _ _ => rfl, fun _ h => (by cases h), fun _ _ => rfl⟩
  | append_singleton is i ih =>
    obtain ⟨hnd, -, hdisj⟩ := List.nodup_append.1 hnd
    have hi : i ∉ is := fun hmem => hdisj i hmem i (List.mem_singleton_self i) rfl
    rw [List.foldl_append, List.foldl_cons, List.foldl_nil]
    by_cases hrun : (g.slot i).state = .running
    · exact (ih hnd).running hi ht ha (hf i) hrun
    · exact (ih hnd).idle hi hrun

end

/-- **The first `lprobe_exit`**: every running slot's file becomes its stream, and no slot is
running any more. -/
theorem lprobeExit_spec {g : Proc} (ht : TableOk g) (ha : Apart g) (hf : ∀ i, FileOk g i)
    (herr : g.info.isError = false) (hlog : g.info.flog = none) :
    (∀ i, ((lprobeExit g).slot i).state ≠ .running) ∧
      ∀ i, (g.slot i).state = .running →
        (lprobeExit g).os.files (outfile (g.slot i).tid) = (g.slot i).stream := by
  have h := exitSlots_spec ht ha hf (List.nodup_finRange profThreadMax)
  simp only [lprobeExit, herr, hlog, Bool.false_eq_true, ↓reduceIte]
  exact ⟨fun i => h.done i (List.mem_finRange i), fun i => h.written i (List.mem_finRange i)⟩

/-- With no slot running, `lprobe_exit` leaves the slots and the files as they are. -/
theorem lprobeExit_idle {g : Proc} (h : ∀ i, (g.slot i).state ≠ .running) :
    (∀ i, (lprobeExit g).slot i = g.slot i) ∧ (lprobeExit g).os.files = g.os.files := by
  have key : ∀ (is : List (Fin profThreadMax)) (g : Proc), (∀ i, (g.slot i).state ≠ .running) →
      is.foldl exitSlot g = g := by
    intro is
    induction is with
    | nil => intro _ _; rfl
    | cons i is ih =>
      intro g h
      rw [List.foldl_cons, exitSlot_idle (h i), ih g h]
  unfold lprobeExit
  split
  · exact ⟨fun _ => rfl, rfl⟩
  · dsimp only
    split
    · rw [key _ g h]
      exact ⟨fun _ => rfl, rfl⟩
    · rename_i f _
      rw [key]
      · exact ⟨fun _ => rfl, rfl⟩
      · exact h

end Lprofile.Probe
