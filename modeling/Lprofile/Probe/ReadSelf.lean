import Mathlib.Data.BitVec
import Lprofile.Probe.Evsel

/-!
# Reading a counter through its page

`mmap_read_self` repeats a round until the lock of the page is the same before
and after it. The kernel keeps in `offset` what the hardware counter does not
hold, so that `offset` and the sign-extended counter add up to the count of the
event.

The code cuts `offset` down to the width of the counter as well: a reading is
the count exactly while `offset` fits in this width (`reads_totals_iff`). And
`delta` is set before the loop and not in each round, so that the times of a
round that does not compute it depend on the rounds before (`one_snapshot_iff`).

`delta` itself scales the cycle counter by `time_mult / 2^time_shift`. The product
has up to 96 bits; the code multiplies the quotient and the remainder apart, and
nothing of the floor is lost (`clock_scaling`).
-/

namespace Lprofile.Probe

/-! ## One round -/

/-- The counter can be read in the round, and the lock changes. -/
structure Retried (r : MmapRound) : Prop where
  rdpmc : r.pc.capUserRdpmc = true
  index : r.pc.index ≠ 0#32
  lock : r.lockAfter ≠ r.pc.lock

/-- The counter can be read in the round, and the lock does not change. -/
structure Settled (r : MmapRound) : Prop where
  rdpmc : r.pc.capUserRdpmc = true
  index : r.pc.index ≠ 0#32
  lock : r.lockAfter = r.pc.lock

/-- The round computes `delta`. -/
def Rescales (r : MmapRound) : Prop :=
  r.pc.capUserTime = true ∧ r.pc.timeEnabled ≠ r.pc.timeRunning

instance (r : MmapRound) : Decidable (Rescales r) := inferInstanceAs (Decidable (_ ∧ _))

/-- `delta` after the round. -/
def deltaAfter (delta : BitVec 64) (r : MmapRound) : BitVec 64 :=
  if Rescales r then cycDelta r.pc r.rdtsc else delta

/-- `count` in the round. -/
def roundCount (r : MmapRound) : BitVec 64 :=
  signExtendWidth r.pc.offset r.pc.pmcWidth.toNat + signExtendWidth r.rdpmc r.pc.pmcWidth.toNat

theorem deltaAfter_eq (delta : BitVec 64) (r : MmapRound) : deltaAfter delta r =
    if r.pc.capUserTime && r.pc.timeEnabled != r.pc.timeRunning then cycDelta r.pc r.rdtsc
    else delta := by
  refine if_congr ?_ rfl rfl
  rw [Rescales, Bool.and_eq_true, bne_iff_ne]

theorem mmapReadSelf_retried {r : MmapRound} (h : Retried r) (delta : BitVec 64)
    (rs : List MmapRound) :
    mmapReadSelf delta (r :: rs) = mmapReadSelf (deltaAfter delta r) rs := by
  have hindex := h.index
  have hlock := h.lock
  simp only [mmapReadSelf, h.rdpmc, bne_iff_ne, ne_eq, hindex, hlock, not_false_eq_true,
    Bool.and_eq_true, and_self, ↓reduceIte, deltaAfter_eq]

theorem mmapReadSelf_settled {r : MmapRound} (h : Settled r) (delta : BitVec 64)
    (rs : List MmapRound) :
    mmapReadSelf delta (r :: rs) = some (.value (roundCount r)
      (r.pc.timeEnabled + deltaAfter delta r) (r.pc.timeRunning + deltaAfter delta r)) := by
  have hindex := h.index
  simp only [mmapReadSelf, h.rdpmc, h.lock, bne_iff_ne, ne_eq, hindex, not_true_eq_false,
    not_false_eq_true, Bool.and_eq_true, and_self, ↓reduceIte, deltaAfter_eq, roundCount]

/-- A discarded round leaves nothing behind but `delta`. -/
theorem mmapReadSelf_append {pre : List MmapRound} (h : ∀ r ∈ pre, Retried r) (delta : BitVec 64)
    (rs : List MmapRound) :
    mmapReadSelf delta (pre ++ rs) = mmapReadSelf (pre.foldl deltaAfter delta) rs := by
  induction pre generalizing delta with
  | nil => rfl
  | cons r pre ih =>
    rw [List.cons_append, mmapReadSelf_retried (h r List.mem_cons_self),
      ih fun x hx => h x (List.mem_cons_of_mem _ hx)]
    rfl

/-! ## One snapshot -/

/-- The rounds read the versions of the page from number `i` on: a round reads one version, and
the lock of that or a later version at its end. -/
def Sees (versions : List PerfMmapPage) : Nat → List MmapRound → Prop
  | _, [] => True
  | i, r :: rs => ∃ a b, i ≤ a ∧ a ≤ b ∧ versions[a]? = some r.pc ∧
      versions[b]?.map (·.lock) = some r.lockAfter ∧ Sees versions b rs

/-- The rounds of a call that ends in the round `last`, while the kernel updates the page; each
update has a lock value of its own. -/
structure Reads (pre : List MmapRound) (last : MmapRound) : Prop where
  versions : ∃ versions : List PerfMmapPage, (versions.map (·.lock)).Nodup ∧
    Sees versions 0 (pre ++ [last])
  retried : ∀ r ∈ pre, Retried r

/-- What a call that ends in `last` returns and stores is the same after any rounds before. -/
def OneSnapshot (last : MmapRound) : Prop :=
  ∀ pre pre', Reads pre last → Reads pre' last →
    mmapReadSelf 0 (pre ++ [last]) = mmapReadSelf 0 (pre' ++ [last])

/-- A round that another version preceded: its `delta` is 1. -/
def staleRound (last : MmapRound) : MmapRound where
  pc := { last.pc with
    lock := last.pc.lock + 1#32
    timeEnabled := last.pc.timeRunning + 1#64
    capUserTime := true
    timeOffset := 1#64
    timeMult := 0#32 }
  rdtsc := 0
  rdpmc := 0
  lockAfter := last.pc.lock

theorem deltaAfter_staleRound (delta : BitVec 64) (last : MmapRound) :
    deltaAfter delta (staleRound last) = 1#64 := by
  have h : Rescales (staleRound last) := ⟨rfl, by simp [staleRound]⟩
  rw [deltaAfter, if_pos h]
  simp [cycDelta, staleRound]

theorem reads_nil {last : MmapRound} (h : Settled last) : Reads [] last :=
  ⟨⟨[last.pc], List.nodup_singleton _, 0, 0, le_rfl, le_rfl, rfl, congrArg some h.lock.symm,
    trivial⟩, fun _ hr => (by cases hr)⟩

theorem reads_staleRound {last : MmapRound} (h : Settled last) : Reads [staleRound last] last := by
  have hlock : last.pc.lock + 1#32 ≠ last.pc.lock := by simp
  refine ⟨⟨[(staleRound last).pc, last.pc], ?_, 0, 1, le_rfl, Nat.zero_le 1, rfl, rfl,
    1, 1, le_rfl, le_rfl, rfl, congrArg some h.lock.symm, trivial⟩, fun r hr => ?_⟩
  · simp [staleRound]
  · rw [List.mem_singleton.1 hr]
    exact ⟨h.rdpmc, h.index, hlock.symm⟩

/-- **What is returned comes from the last round alone exactly where that round computes
`delta`.** -/
theorem one_snapshot_iff (last : MmapRound) (h : Settled last) :
    OneSnapshot last ↔ Rescales last := by
  constructor
  · intro hone
    by_contra hr
    have heq := hone [] [staleRound last] (reads_nil h) (reads_staleRound h)
    rw [List.nil_append, List.cons_append, List.nil_append,
      mmapReadSelf_retried ((reads_staleRound h).retried _ List.mem_cons_self),
      deltaAfter_staleRound, mmapReadSelf_settled h, mmapReadSelf_settled h] at heq
    simp only [deltaAfter, if_neg hr, Option.some.injEq, ReadSelf.value.injEq, true_and] at heq
    exact absurd ((BitVec.add_right_inj _).1 heq.1) (by decide)
  · intro hr pre pre' hpre hpre'
    rw [mmapReadSelf_append hpre.retried, mmapReadSelf_append hpre'.retried,
      mmapReadSelf_settled h, mmapReadSelf_settled h]
    simp only [deltaAfter, if_pos hr]

/-- A page with a counter of 48 bits, for an event that had to wait. -/
def plainPage : PerfMmapPage where
  lock := 2
  timeEnabled := 1000
  timeRunning := 900
  capUserTime := false
  capUserRdpmc := true
  timeOffset := 0
  timeMult := 1
  timeShift := 0
  index := 1
  pmcWidth := 48
  offset := 500

/-- The kernel still offers the time in the version before. -/
def timedPage : PerfMmapPage :=
  { plainPage with lock := 1, timeEnabled := 900, timeRunning := 800, capUserTime := true }

theorem one_snapshot_iff_timed :
    OneSnapshot ⟨timedPage, 70, 7, 1⟩ ∧ Rescales ⟨timedPage, 70, 7, 1⟩ :=
  ⟨(one_snapshot_iff ⟨timedPage, 70, 7, 1⟩ ⟨rfl, by decide, rfl⟩).2 (by decide), by decide⟩

/-- The 70 ns computed in the discarded round are added to the times of the last one. -/
theorem discarded_round_counts :
    Settled ⟨plainPage, 80, 7, 2⟩ ∧ Reads [⟨timedPage, 70, 7, 2⟩] ⟨plainPage, 80, 7, 2⟩ ∧
      mmapReadSelf 0 [⟨timedPage, 70, 7, 2⟩, ⟨plainPage, 80, 7, 2⟩] =
        some (.value 507 1070 970) ∧
      mmapReadSelf 0 [⟨plainPage, 80, 7, 2⟩] = some (.value 507 1000 900) ∧
      ¬ OneSnapshot ⟨plainPage, 80, 7, 2⟩ := by
  have hset : Settled ⟨plainPage, 80, 7, 2⟩ := ⟨rfl, by decide, rfl⟩
  have hreads : Reads [⟨timedPage, 70, 7, 2⟩] ⟨plainPage, 80, 7, 2⟩ := by
    refine ⟨⟨[timedPage, plainPage], by decide, 0, 1, le_rfl, Nat.zero_le 1, rfl, rfl,
      1, 1, le_rfl, le_rfl, rfl, rfl, trivial⟩, fun r hr => ?_⟩
    rw [List.mem_singleton.1 hr]
    exact ⟨rfl, by decide, by decide⟩
  have htwo : mmapReadSelf 0 [⟨timedPage, 70, 7, 2⟩, ⟨plainPage, 80, 7, 2⟩] =
      some (.value 507 1070 970) := rfl
  have hone : mmapReadSelf 0 [⟨plainPage, 80, 7, 2⟩] = some (.value 507 1000 900) := rfl
  refine ⟨hset, hreads, htwo, hone, fun h => ?_⟩
  have heq := h _ _ hreads (reads_nil hset)
  exact absurd (htwo.symm.trans (heq.trans hone)) (fun e => (by cases e))

/-! ## The clock -/

/-- Multiplying the quotient and the remainder apart loses nothing of the floor. -/
theorem scale_split (c m s : Nat) : c * m / 2 ^ s = c / 2 ^ s * m + c % 2 ^ s * m / 2 ^ s := by
  conv_lhs => rw [← Nat.div_add_mod c (2 ^ s)]
  rw [Nat.add_mul, Nat.mul_assoc, Nat.mul_add_div (Nat.two_pow_pos s)]

/-- The mask `(1 << s) - 1` takes the remainder. -/
theorem toNat_and_mask (cyc : BitVec 64) {s : Nat} (hs : s < 64) :
    (cyc &&& ((1#64 <<< s) - 1#64)).toNat = cyc.toNat % 2 ^ s := by
  have hlt : 2 ^ s < 2 ^ 64 := Nat.pow_lt_pow_right (by decide) hs
  have hpos : 0 < 2 ^ s := Nat.two_pow_pos s
  have hone : (1#64 <<< s).toNat = 2 ^ s := by
    rw [BitVec.toNat_shiftLeft, Nat.shiftLeft_eq, BitVec.toNat_ofNat,
      Nat.mod_eq_of_lt (by decide : 1 < 2 ^ 64), Nat.one_mul, Nat.mod_eq_of_lt hlt]
  have hmask : ((1#64 <<< s) - 1#64).toNat = 2 ^ s - 1 := by
    rw [BitVec.toNat_sub, hone, BitVec.toNat_ofNat]
    omega
  rw [BitVec.toNat_and, hmask, Nat.and_two_pow_sub_one_eq_mod]

/-- The product that is shifted afterwards fits: both factors are below 2^32. -/
theorem rem_mul_mult_lt (pc : PerfMmapPage) (cyc : BitVec 64) (hs : pc.timeShift.toNat ≤ 32) :
    cyc.toNat % 2 ^ pc.timeShift.toNat * pc.timeMult.toNat < 2 ^ 64 := by
  have hrem : cyc.toNat % 2 ^ pc.timeShift.toNat < 2 ^ 32 :=
    (Nat.mod_lt _ (Nat.two_pow_pos _)).trans_le (Nat.pow_le_pow_right (by decide) hs)
  have hprod := Nat.mul_lt_mul'' hrem pc.timeMult.isLt
  rwa [← Nat.pow_add] at hprod

theorem toNat_cycDelta (pc : PerfMmapPage) (cyc : BitVec 64) (hs : pc.timeShift.toNat ≤ 32) :
    (cycDelta pc cyc).toNat = (pc.timeOffset.toNat +
      cyc.toNat * pc.timeMult.toNat / 2 ^ pc.timeShift.toNat) % 2 ^ 64 := by
  have hmult : (pc.timeMult.setWidth 64).toNat = pc.timeMult.toNat :=
    BitVec.toNat_setWidth_of_le (by decide)
  have hrem := toNat_and_mask cyc (show pc.timeShift.toNat < 64 by omega)
  have hlow := Nat.mod_eq_of_lt (rem_mul_mult_lt pc cyc hs)
  unfold cycDelta
  simp only [BitVec.toNat_add, BitVec.toNat_mul, BitVec.toNat_ushiftRight, hrem, hmult,
    Nat.shiftRight_eq_div_pow, hlow]
  -- only the product with the quotient wraps, and it is a summand
  rw [scale_split cyc.toNat]
  omega

/-- **The split product is the product.** In 64-bit arithmetic `delta` is `time_offset` and the
scaled cycles, and the product with the remainder does not wrap. -/
theorem clock_scaling (pc : PerfMmapPage) (cyc : BitVec 64) (hs : pc.timeShift.toNat ≤ 32) :
    let rem := cyc &&& ((1#64 <<< pc.timeShift.toNat) - 1#64)
    (cycDelta pc cyc).toNat = (pc.timeOffset.toNat +
        cyc.toNat * pc.timeMult.toNat / 2 ^ pc.timeShift.toNat) % 2 ^ 64 ∧
      rem.toNat * pc.timeMult.toNat < 2 ^ 64 := by
  refine ⟨toNat_cycDelta pc cyc hs, ?_⟩
  rw [toNat_and_mask cyc (by omega)]
  exact rem_mul_mult_lt pc cyc hs

/-- A clock of 3 GHz (`time_mult` is 2^32 / 3) at the last cycle there is. -/
theorem clock_scaling_last_cycle :
    (cycDelta { timedPage with timeMult := 1431655765, timeShift := 32 }
      (BitVec.allOnes 64)).toNat = 6148914689804861439 :=
  (clock_scaling { timedPage with timeMult := 1431655765, timeShift := 32 } (BitVec.allOnes 64)
    (by decide)).1.trans (by decide +kernel)

/-- The times of a call whose last round computes `delta`. -/
theorem stored_times {pre : List MmapRound} {last : MmapRound} (h : Settled last)
    (hreads : Reads pre last) (hr : Rescales last) (hs : last.pc.timeShift.toNat ≤ 32) :
    ∃ enabled running, mmapReadSelf 0 (pre ++ [last]) =
        some (.value (roundCount last) enabled running) ∧
      enabled.toNat = (last.pc.timeEnabled.toNat + last.pc.timeOffset.toNat + last.rdtsc.toNat *
        last.pc.timeMult.toNat / 2 ^ last.pc.timeShift.toNat) % 2 ^ 64 ∧
      running.toNat = (last.pc.timeRunning.toNat + last.pc.timeOffset.toNat + last.rdtsc.toNat *
        last.pc.timeMult.toNat / 2 ^ last.pc.timeShift.toNat) % 2 ^ 64 := by
  refine ⟨_, _, by rw [mmapReadSelf_append hreads.retried, mmapReadSelf_settled h], ?_, ?_⟩
  · rw [deltaAfter, if_pos hr, BitVec.toNat_add, toNat_cycDelta _ _ hs]
    omega
  · rw [deltaAfter, if_pos hr, BitVec.toNat_add, toNat_cycDelta _ _ hs]
    omega

/-! ## The count of the event -/

/-- The shifts keep the lowest `w` bits as a signed number. -/
theorem signExtendWidth_eq (x : BitVec 64) {w : Nat} (hw : 1 ≤ w ∧ w ≤ 64) :
    signExtendWidth x w = (x.setWidth w).signExtend 64 := by
  obtain ⟨h1, h64⟩ := hw
  refine BitVec.eq_of_getLsbD_eq fun i hi => ?_
  rw [signExtendWidth, BitVec.getLsbD_sshiftRight, BitVec.getLsbD_signExtend]
  by_cases h : i < w
  · have hlow : 64 - w + i < 64 := by omega
    have hsub : 64 - w + i - (64 - w) = i := by omega
    have hle : ¬ 64 - w + i < 64 - w := by omega
    simp [hlow, hi, h, hsub, hle]
  · have hhigh : ¬ (64 - w + i < 64) := by omega
    have hsub : 63 - (64 - w) = w - 1 := by omega
    have hle : ¬ 63 < 64 - w := by omega
    have hi' : ¬ 64 ≤ i := by omega
    have hlast : x.getLsbD (w - 1) = x[w - 1] := BitVec.getLsbD_eq_getElem _
    have hw : w - 1 < w := by omega
    simp [hhigh, hi, hi', h, BitVec.msb_eq_getLsbD_last, hsub, hle, hlast, hw]

/-- The numbers that `w` bits can hold are those the shifts leave alone. -/
theorem signExtendWidth_eq_self {x : BitVec 64} {w : Nat} (hw : 1 ≤ w ∧ w ≤ 64) :
    signExtendWidth x w = x ↔ -2 ^ (w - 1) ≤ x.toInt ∧ x.toInt < 2 ^ (w - 1) := by
  have hpow : (2 : Int) ^ w = 2 ^ (w - 1) * 2 := by
    have hsucc : w - 1 + 1 = w := by omega
    exact hsucc ▸ Int.pow_succ 2 (w - 1)
  have hpos : (0 : Int) < 2 ^ (w - 1) := Int.pow_pos (by decide)
  have hdvd : ((2 ^ w : Nat) : Int) ∣ x.toInt - x.toNat := by
    have h64 : ((2 ^ 64 : Nat) : Int) ∣ x.toInt - x.toNat := by
      rw [BitVec.toInt_eq_toNat_bmod]
      exact Int.dvd_bmod_sub_self
    exact Int.dvd_trans (Int.natCast_dvd_natCast.2 (Nat.pow_dvd_pow 2 hw.2)) h64
  rw [signExtendWidth_eq x hw, ← BitVec.toInt_inj, BitVec.toInt_signExtend_of_le hw.2,
    BitVec.toInt_setWidth, Int.bmod_eq_iff (Nat.two_pow_pos w)]
  push_cast at hdvd ⊢
  rw [hpow] at hdvd ⊢
  constructor
  · rintro ⟨h1, h2, -⟩
    omega
  · rintro ⟨h1, h2⟩
    exact ⟨by omega, by omega, hdvd⟩

/-- A call of `mmap_read_self` that ends with a stable round, while the event has counted `total`:
the kernel promises that `offset` and the counter, as a signed number, add up to it. -/
structure Snapshot where
  pre : List MmapRound
  last : MmapRound
  retried : ∀ r ∈ pre, Retried r
  settled : Settled last
  width : 1 ≤ last.pc.pmcWidth.toNat ∧ last.pc.pmcWidth.toNat ≤ 64
  total : Nat
  kernel : last.pc.offset + (last.rdpmc.setWidth last.pc.pmcWidth.toNat).signExtend 64 =
    BitVec.ofNat 64 total

/-- The kernel's part of the count fits in the width of the counter. -/
def Snapshot.OffsetFits (s : Snapshot) : Prop :=
  -2 ^ (s.last.pc.pmcWidth.toNat - 1) ≤ s.last.pc.offset.toInt ∧
    s.last.pc.offset.toInt < 2 ^ (s.last.pc.pmcWidth.toNat - 1)

theorem Snapshot.readSelf (s : Snapshot) : ∃ enabled running,
    mmapReadSelf 0 (s.pre ++ [s.last]) = some (.value (roundCount s.last) enabled running) :=
  ⟨_, _, by rw [mmapReadSelf_append s.retried, mmapReadSelf_settled s.settled]⟩

def Snapshot.sample (s : Snapshot) : PmcSample where
  rounds := s.pre ++ [s.last]
  ends := by
    obtain ⟨enabled, running, h⟩ := s.readSelf
    rw [h]
    rfl

theorem Snapshot.count_sample (s : Snapshot) : s.sample.count = roundCount s.last := by
  obtain ⟨enabled, running, h⟩ := s.readSelf
  simp only [PmcSample.count, Snapshot.sample, h, Option.get_some, ReadSelf.toCount]

theorem Snapshot.count_eq_total_iff (s : Snapshot) :
    s.sample.count = BitVec.ofNat 64 s.total ↔ s.OffsetFits := by
  rw [s.count_sample, roundCount, signExtendWidth_eq s.last.rdpmc s.width, ← s.kernel,
    BitVec.add_left_inj, signExtendWidth_eq_self s.width]
  rfl

/-- Both readings are the count, and their difference is the number of events in between. -/
structure ReadsTotals (e : ProfEvsel) (s s' : Snapshot) : Prop where
  first : profEvselRdpmc e s.sample = .ok (BitVec.ofNat 64 s.total)
  second : profEvselRdpmc e s'.sample = .ok (BitVec.ofNat 64 s'.total)
  events : s.total ≤ s'.total → ∀ x y, profEvselRdpmc e s.sample = .ok x →
    profEvselRdpmc e s'.sample = .ok y → y - x = BitVec.ofNat 64 (s'.total - s.total)

/-- **A reading is the count of the event exactly while `offset` fits in the width of the
counter.** -/
theorem reads_totals_iff (e : ProfEvsel) (hen : e.isEnable = true) (hpage : e.mmPage ≠ none)
    (s s' : Snapshot) : ReadsTotals e s s' ↔ s.OffsetFits ∧ s'.OffsetFits := by
  have hread : ∀ s : Snapshot, profEvselRdpmc e s.sample = .ok s.sample.count := by
    intro s
    obtain ⟨page, hp⟩ := Option.ne_none_iff_exists'.1 hpage
    simp only [profEvselRdpmc, hen, hp, Bool.not_true, Bool.false_eq_true, ↓reduceIte]
  have hiff : ∀ s : Snapshot,
      profEvselRdpmc e s.sample = .ok (BitVec.ofNat 64 s.total) ↔ s.OffsetFits := by
    intro s
    rw [hread, Except.ok.injEq, s.count_eq_total_iff]
  constructor
  · intro h
    exact ⟨(hiff s).1 h.first, (hiff s').1 h.second⟩
  · rintro ⟨hs, hs'⟩
    refine ⟨(hiff s).2 hs, (hiff s').2 hs', fun hle x y hx hy => ?_⟩
    rw [(hiff s).2 hs] at hx
    rw [(hiff s').2 hs'] at hy
    cases hx
    cases hy
    rw [BitVec.sub_eq_iff_eq_add, ← BitVec.ofNat_add, Nat.sub_add_cancel hle]

/-- An event that is open, enabled and mapped. -/
def enabledEvsel : ProfEvsel := ⟨0, .zero, 3, some 4096, true, true, "cpu-cycles".toList⟩

/-- One stable round of a page whose `offset` is `offset`; the counter stands at 7. -/
def plainSnapshot (offset : Nat) : Snapshot where
  pre := []
  last := ⟨{ plainPage with offset := BitVec.ofNat 64 offset }, 0, 7, 2⟩
  retried _ h := (by cases h)
  settled := ⟨rfl, show plainPage.index ≠ 0#32 by decide, rfl⟩
  width := show 1 ≤ plainPage.pmcWidth.toNat ∧ plainPage.pmcWidth.toNat ≤ 64 by decide
  total := offset + 7
  kernel := (BitVec.ofNat_add offset 7).symm

theorem reads_totals_iff_plain :
    ReadsTotals enabledEvsel (plainSnapshot 500) (plainSnapshot 600) ∧
      (plainSnapshot 500).OffsetFits ∧ (plainSnapshot 600).OffsetFits := by
  have h500 : (plainSnapshot 500).OffsetFits := by
    unfold Snapshot.OffsetFits
    decide
  have h600 : (plainSnapshot 600).OffsetFits := by
    unfold Snapshot.OffsetFits
    decide
  exact ⟨(reads_totals_iff enabledEvsel rfl (by decide) (plainSnapshot 500)
    (plainSnapshot 600)).2 ⟨h500, h600⟩, h500, h600⟩

/-- After 2^47 events the kernel's part is read as a negative number. -/
theorem long_run_wraps :
    profEvselRdpmc enabledEvsel (plainSnapshot (2 ^ 47)).sample = .ok (-2 ^ 47 + 7) ∧
      (plainSnapshot (2 ^ 47)).total = 2 ^ 47 + 7 ∧
      ¬ ReadsTotals enabledEvsel (plainSnapshot 500) (plainSnapshot (2 ^ 47)) := by
  have hread : profEvselRdpmc enabledEvsel (plainSnapshot (2 ^ 47)).sample = .ok (-2 ^ 47 + 7) := by
    show Except.ok (plainSnapshot (2 ^ 47)).sample.count = _
    rw [Snapshot.count_sample]
    decide
  refine ⟨hread, rfl, fun h => ?_⟩
  have hsecond := h.second
  rw [hread] at hsecond
  exact absurd (Except.ok.inj hsecond) (by decide)

end Lprofile.Probe
