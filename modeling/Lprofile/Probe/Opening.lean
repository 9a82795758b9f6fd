import Lprofile.Probe.Evsel

/-!
# Opening an event

`prof_evsel__open` retries a `perf_event_open` that fails with `EMFILE`: it raises the
soft limit of open files to the hard limit, and the second time asks for a higher hard
limit as well. `set_rlimit` counts the limits raised; every other failure ends the call.

`OpenRun` are the calls the function can make and the answer it ends with, one
constructor for each way through the loop. `retryOpen_run` says once that these are all
of them; what an open does to the selector, to the trace and to the descriptors follows
by induction on `OpenRun`.
-/

namespace Lprofile.Probe

open Lprofile.Lib

/-! ## The calls an operation makes -/

/-- `os'` is `os` after the calls `cs`. -/
def Calls (os : Os) (cs : List Syscall) (os' : Os) : Prop := os'.trace = os.trace ++ cs

/-- The calls made since `os`. -/
def callsSince (os os' : Os) : List Syscall := os'.trace.drop os.trace.length

section

variable {os os' os'' : Os} {cs cs' : List Syscall}

theorem Calls.refl (os : Os) : Calls os [] os := (List.append_nil _).symm

theorem Calls.log (os : Os) (c : Syscall) : Calls os [c] (os.log c) := rfl

theorem Calls.trans (h : Calls os cs os') (h' : Calls os' cs' os'') :
    Calls os (cs ++ cs') os'' := by
  unfold Calls at *
  rw [h', h, List.append_assoc]

theorem Calls.callsSince (h : Calls os cs os') : callsSince os os' = cs := by
  unfold Calls at h
  rw [Probe.callsSince, h, List.drop_left]

end

/-! ## The ways through the loop -/

/-- From `os`, with `left` limits left to raise, the calls lead to `os'`, and the last attempt is
answered by `res`. -/
inductive OpenRun (pid : Int) (attr : PerfEventAttr) : Nat → Os → Os → Except Errno Nat → Prop where
  | granted {left : Nat} {os : Os} {fd : Nat} (h : os.kernel.perfEventOpen os.trace = .ok fd) :
      OpenRun pid attr left os (os.log (.perfEventOpen pid attr (.ok fd))) (.ok fd)
  | refused {left : Nat} {os : Os} {err : Errno}
      (h : os.kernel.perfEventOpen os.trace = .error err) (hstop : left = 0 ∨ err ≠ EMFILE) :
      OpenRun pid attr left os (os.log (.perfEventOpen pid attr (.error err))) (.error err)
  | noLimit {left : Nat} {os : Os} (h : os.kernel.perfEventOpen os.trace = .error EMFILE) :
      OpenRun pid attr (left + 1) os
        ((os.log (.perfEventOpen pid attr (.error EMFILE))).log (.getrlimit none)) (.error EMFILE)
  | notRaised {left : Nat} {os : Os} (l : Rlimit)
      (h : os.kernel.perfEventOpen os.trace = .error EMFILE) :
      OpenRun pid attr (left + 1) os
        (((os.log (.perfEventOpen pid attr (.error EMFILE))).log (.getrlimit (some l))).log
          (.setrlimit (raisedLimit (left + 1) l) false)) (.error EMFILE)
  | retried {left : Nat} {os os' : Os} {res : Except Errno Nat} (l : Rlimit)
      (h : os.kernel.perfEventOpen os.trace = .error EMFILE)
      (hrun : OpenRun pid attr left
        (((os.log (.perfEventOpen pid attr (.error EMFILE))).log (.getrlimit (some l))).log
          (.setrlimit (raisedLimit (left + 1) l) true)) os' res) :
      OpenRun pid attr (left + 1) os os' res

/-- The return value after the last answer. -/
def openReturn : Except Errno Nat → Int
  | .ok _ => 0
  | .error err => -err.val

/-- The selector after the last answer. -/
def openedEvsel (e : ProfEvsel) : Except Errno Nat → ProfEvsel
  | .ok fd => { e with fd := fd, isOpen := true }
  | .error _ => { e with fd := -1, isOpen := false }

theorem openReturn_error_neg (err : Errno) : openReturn (.error err) < 0 := by
  have hpos := err.pos
  simp only [openReturn]
  omega

theorem getrlimit_eq (os : Os) : ∃ r, os.getrlimit = (r, os.log (.getrlimit r)) := ⟨_, rfl⟩

theorem setrlimit_eq (os : Os) (l : Rlimit) : ∃ r, os.setrlimit l = (r, os.log (.setrlimit l r)) :=
  ⟨_, rfl⟩

theorem openFailed_eq (e : ProfEvsel) (err : Errno) (os : Os) :
    openFailed { e with fd := -1 } err os =
      (openReturn (.error err), openedEvsel e (.error err), os) := by
  have hfd : ¬ (0 : Int) ≤ -1 := by decide
  simp only [openFailed, hfd, ↓reduceIte, openReturn, openedEvsel]

theorem retryOpen_run (pid : Int) (left : Nat) (e : ProfEvsel) (os : Os) :
    ∃ os' res, OpenRun pid e.attr left os os' res ∧
      retryOpen pid left e os = (openReturn res, openedEvsel e res, os') := by
  induction left generalizing e os with
  | zero =>
    rw [retryOpen, Os.perfEventOpen]
    rcases h : os.kernel.perfEventOpen os.trace with err | fd
    · exact ⟨_, _, .refused h (.inl rfl), openFailed_eq e err _⟩
    · exact ⟨_, _, .granted h, rfl⟩
  | succ left ih =>
    rw [retryOpen, Os.perfEventOpen]
    rcases h : os.kernel.perfEventOpen os.trace with err | fd
    · by_cases herr : err = EMFILE
      · subst herr
        simp only [↓reduceIte]
        obtain ⟨limit, hget⟩ := getrlimit_eq (os.log (.perfEventOpen pid e.attr (.error EMFILE)))
        rcases limit with _ | l
        · rw [hget]
          exact ⟨_, _, .noLimit h, openFailed_eq e EMFILE _⟩
        · simp only [hget]
          obtain ⟨ok, hset⟩ := setrlimit_eq
            ((os.log (.perfEventOpen pid e.attr (.error EMFILE))).log (.getrlimit (some l)))
            (raisedLimit (left + 1) l)
          rw [hset]
          cases ok with
          | false => exact ⟨_, _, .notRaised l h, openFailed_eq e EMFILE _⟩
          | true =>
            obtain ⟨os', res, hrun, heq⟩ := ih { e with fd := -1 } _
            exact ⟨os', res, .retried l h hrun, heq.trans (by cases res <;> rfl)⟩
      · simp only [herr, ↓reduceIte]
        exact ⟨_, _, .refused h (.inr herr), openFailed_eq e err _⟩
    · exact ⟨_, _, .granted h, rfl⟩

/-! ## The outcome -/

/-- The answer to a `perf_event_open`. -/
def attempt : Syscall → Option (Except Errno Nat)
  | .perfEventOpen _ _ r => some r
  | _ => none

def attempts (cs : List Syscall) : List (Except Errno Nat) := cs.filterMap attempt

/-- Every `setrlimit` comes right after a `getrlimit`, and lowers neither of the limits read. -/
def RaisesLimits (cs : List Syscall) : Prop :=
  ∀ pre l ok post, cs = pre ++ .setrlimit l ok :: post →
    ∃ m, pre.getLast? = some (.getrlimit (some m)) ∧ m.cur ≤ l.cur ∧ m.max ≤ l.max

/-- The limits the system reports. -/
def ReportedLimit (l : Rlimit) : Prop := l.cur ≤ l.max ∧ l.max < 2 ^ 64 - 1000

theorem raisedLimit_le {l : Rlimit} (h : ReportedLimit l) (left : Nat) :
    l.cur ≤ (raisedLimit left l).cur ∧ l.max ≤ (raisedLimit left l).max := by
  obtain ⟨hcur, hmax⟩ := h
  unfold raisedLimit
  split
  · exact ⟨hcur, le_rfl⟩
  · have hmod : (l.max + 1000) % 2 ^ 64 = l.max + 1000 := by omega
    dsimp only
    omega

theorem raisesLimits_nil : RaisesLimits [] := fun _ _ _ _ h => by simp at h

theorem RaisesLimits.cons {c : Syscall} {cs : List Syscall} (h : RaisesLimits cs)
    (hc : ∀ l ok, c ≠ .setrlimit l ok) : RaisesLimits (c :: cs) := by
  intro pre l ok post heq
  rcases List.cons_eq_append_iff.1 heq with ⟨-, hset⟩ | ⟨pre', rfl, hcs⟩
  · exact absurd (List.cons.inj hset).1.symm (hc l ok)
  · obtain ⟨m, hm, hle⟩ := h pre' l ok post hcs
    exact ⟨m, by rw [List.getLast?_cons, hm]; rfl, hle⟩

theorem RaisesLimits.raise {m l : Rlimit} {ok : Bool} {cs : List Syscall} (h : RaisesLimits cs)
    (hle : m.cur ≤ l.cur ∧ m.max ≤ l.max) :
    RaisesLimits (.getrlimit (some m) :: .setrlimit l ok :: cs) := by
  intro pre l' ok' post heq
  rcases List.cons_eq_append_iff.1 heq with ⟨-, hset⟩ | ⟨pre, rfl, hcs⟩
  · cases (List.cons.inj hset).1
  · rcases List.cons_eq_append_iff.1 hcs with ⟨rfl, hset⟩ | ⟨pre, rfl, hcs⟩
    · cases (List.cons.inj hset).1
      exact ⟨m, rfl, hle⟩
    · obtain ⟨m', hm', hle'⟩ := h pre l' ok' post (List.cons.inj hcs).2
      exact ⟨m', by rw [List.getLast?_cons, List.getLast?_cons, hm']; rfl, hle'⟩

/-- The calls of an open that ends with `res`: attempts that fail with `EMFILE` and then the last
one, and limits that are raised in between. -/
structure OpenCalls (left : Nat) (cs : List Syscall) (res : Except Errno Nat) : Prop where
  noMap : ∀ fd r, .mmap fd r ∉ cs
  attempts : ∃ k ≤ left, attempts cs = List.replicate k (.error EMFILE) ++ [res]
  limits : (∀ l, .getrlimit (some l) ∈ cs → ReportedLimit l) → RaisesLimits cs

theorem OpenRun.calls {pid : Int} {attr : PerfEventAttr} {left : Nat} {os os' : Os}
    {res : Except Errno Nat} (h : OpenRun pid attr left os os' res) :
    ∃ cs, Calls os cs os' ∧ OpenCalls left cs res := by
  induction h with
  | granted =>
    exact ⟨_, .log _ _, by simp, ⟨0, Nat.zero_le _, rfl⟩, fun _ => raisesLimits_nil.cons nofun⟩
  | refused =>
    exact ⟨_, .log _ _, by simp, ⟨0, Nat.zero_le _, rfl⟩, fun _ => raisesLimits_nil.cons nofun⟩
  | noLimit =>
    exact ⟨[.perfEventOpen pid attr (.error EMFILE), .getrlimit none],
      (Calls.log _ _).trans (.log _ _), by simp, ⟨0, Nat.zero_le _, rfl⟩,
      fun _ => .cons (.cons raisesLimits_nil nofun) nofun⟩
  | notRaised l =>
    refine ⟨[.perfEventOpen pid attr (.error EMFILE), .getrlimit (some l), .setrlimit _ false],
      ((Calls.log _ _).trans (.log _ _)).trans (.log _ _), by simp, ⟨0, Nat.zero_le _, rfl⟩,
      fun hlim => ?_⟩
    exact (raisesLimits_nil.raise (raisedLimit_le (hlim l (by simp)) _)).cons nofun
  | retried l _ _ ih =>
    obtain ⟨cs, hcs, hmap, ⟨k, hk, hattempts⟩, hlimits⟩ := ih
    refine ⟨.perfEventOpen pid attr (.error EMFILE) :: .getrlimit (some l) ::
        .setrlimit _ true :: cs,
      (((Calls.log _ _).trans (.log _ _)).trans (.log _ _)).trans hcs, by simpa using hmap,
      ⟨k + 1, Nat.succ_le_succ hk, ?_⟩, fun hlim => ?_⟩
    · rw [List.replicate_succ, List.cons_append, ← hattempts]
      rfl
    · have hrest := hlimits fun m hm => hlim m (by simp [hm])
      exact (hrest.raise (raisedLimit_le (hlim l (by simp)) _)).cons nofun

/-- What `prof_evsel__open` did: at most three attempts, all but the last refused with `EMFILE`, and
the selector and the return value are those of the last. -/
structure OpenOutcome (cs : List Syscall) (ret : Int) (e : ProfEvsel) : Prop where
  attempts : ∃ k ≤ 2, ∃ last, attempts cs = List.replicate k (.error EMFILE) ++ [last]
  success : ∀ fd : Nat, (Probe.attempts cs).getLast? = some (.ok fd) ↔
    ret = 0 ∧ e.isOpen = true ∧ e.fd = fd
  failure : ∀ err, (Probe.attempts cs).getLast? = some (.error err) →
    ret = -err.val ∧ e.isOpen = false ∧ e.fd < 0
  limits : RaisesLimits cs

/-- **An open ends after at most three attempts, and with the outcome of the last one.** -/
theorem open_outcome (e : ProfEvsel) (pid : Int) (os : Os)
    (hlim : ∀ l, .getrlimit (some l) ∈ callsSince os (profEvselOpen e pid os).2.2 →
      ReportedLimit l) :
    OpenOutcome (callsSince os (profEvselOpen e pid os).2.2) (profEvselOpen e pid os).1
      (profEvselOpen e pid os).2.1 := by
  obtain ⟨os', res, hrun, heq⟩ := retryOpen_run pid 2 e os
  obtain ⟨cs, hcs, -, ⟨k, hk, hattempts⟩, hlimits⟩ := hrun.calls
  have hopen : profEvselOpen e pid os = (openReturn res, openedEvsel e res, os') := heq
  rw [hopen] at hlim ⊢
  rw [hcs.callsSince] at hlim ⊢
  have hlast : (attempts cs).getLast? = some res := by
    rw [hattempts, List.getLast?_concat]
  refine ⟨⟨k, hk, res, hattempts⟩, fun fd => ?_, fun err herr => ?_, hlimits hlim⟩
  · rw [hlast]
    cases res with
    | ok fd' =>
      simp only [openReturn, openedEvsel, Option.some.injEq, Except.ok.injEq, Int.natCast_inj,
        true_and]
    | error err => simp [openReturn, openedEvsel]
  · obtain rfl : res = .error err := Option.some.inj (hlast.symm.trans herr)
    exact ⟨rfl, rfl, Int.negSucc_lt_zero 0⟩

/-- All files are open, and still are when the soft limit of 1024 has been raised to the hard limit
of 4096, which cannot be raised. -/
def Kernel.fullTable : Kernel where
  perfEventOpen _ := .error EMFILE
  getrlimit tr := some ⟨if tr.length ≤ 1 then 1024 else 4096, 4096⟩
  setrlimit tr := tr.length ≤ 2
  mmap _ := none
  fopen _ := false

theorem open_outcome_fullTable :
    OpenOutcome [.perfEventOpen 7 .zero (.error EMFILE), .getrlimit (some ⟨1024, 4096⟩),
        .setrlimit ⟨4096, 4096⟩ true, .perfEventOpen 7 .zero (.error EMFILE),
        .getrlimit (some ⟨4096, 4096⟩), .setrlimit ⟨5096, 5096⟩ false]
      (-24) { profEvselNew "cpu-cycles".toList with fd := -1 } := by
  refine open_outcome (profEvselNew "cpu-cycles".toList) 7 (.boot .fullTable) fun l hl => ?_
  have hmem : l = ⟨1024, 4096⟩ ∨ l = ⟨4096, 4096⟩ := by
    have hcalls : callsSince (.boot .fullTable) (profEvselOpen (profEvselNew "cpu-cycles".toList) 7
        (.boot .fullTable)).2.2 = [.perfEventOpen 7 .zero (.error EMFILE),
          .getrlimit (some ⟨1024, 4096⟩), .setrlimit ⟨4096, 4096⟩ true,
          .perfEventOpen 7 .zero (.error EMFILE), .getrlimit (some ⟨4096, 4096⟩),
          .setrlimit ⟨5096, 5096⟩ false] := rfl
    rw [hcalls] at hl
    simpa using hl
  rcases hmem with rfl | rfl <;> exact ⟨by decide, by decide⟩

end Lprofile.Probe
