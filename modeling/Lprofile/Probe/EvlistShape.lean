import Lprofile.Probe.EvlistHeap

/-!
# The shape of an event list

`evlistMachine l` takes calls of `__prof_evlist__add` on the list at `l`, each with the
address its `zalloc` returns or with none. `addedAddr` is the selector a call adds: none
when the event is unknown or there is no memory for it.

`EvlistShape m l as` is what the loops over the list see. The pointers lead through `as`
and back, the other way round backwards, `nr_entries` and the `idx` of the selectors
count them, and `__read_count` and `prof_evlist__delete` go through all of them and end.
It holds after every run, as long as `nr_entries` is an `int`, and whatever happens to
the selectors but for their `evlist` and `idx` (`Mem.SameLists`).
-/

namespace Lprofile.Probe

open Lprofile.Lib

/-! ## Runs -/

def evlistMachine (l : Addr) : Machine Mem AddCall Unit where
  Enabled m call := ∀ a, call.alloc = some a → m.Free a
  step m call :=
    match memEvlistAdd l call m with
    | some r => .ok r.2
    | none => .error ()

def AddCall.addedAddr (call : AddCall) : Option Addr :=
  if (profEvselParse call.str).isSome then call.alloc else none

/-- The selectors the calls add, in order. -/
def added (calls : List AddCall) : List Addr := calls.filterMap AddCall.addedAddr

/-- The list counts its selectors, and each has its position. -/
structure Indexed (evlist : ProfEvlist) : Prop where
  count : evlist.nrEntries = evlist.entries.length
  idx : evlist.entries.map (·.idx) = List.range evlist.entries.length

theorem indexed_profEvlistNew (pid : Int) : Indexed (profEvlistNew pid) := ⟨rfl, rfl⟩

theorem Indexed.add {evlist : ProfEvlist} (h : Indexed evlist) (str : CStr) :
    Indexed (profEvlistAdd evlist str).2 := by
  unfold profEvlistAdd
  split
  · exact h
  · refine ⟨by simp [h.count], ?_⟩
    simp only [List.map_append, h.idx, List.length_append, List.length_singleton, List.range_succ,
      h.count]
    rfl

/-- What a call does to a list in memory. -/
theorem evlistMachine_step {m : Mem} {l : Addr} {as : List Addr} {evlist : ProfEvlist}
    (h : Represents m l as evlist) (hidx : Indexed evlist) {call : AddCall}
    (hen : (evlistMachine l).Enabled m call) :
    (call.addedAddr = none ∧ (evlistMachine l).step m call = .ok m) ∨
    ∃ a, call.addedAddr = some a ∧
      ((2 ^ 31 ≤ as.length + 1 ∧ (evlistMachine l).step m call = .error ()) ∨
      (as.length + 1 < 2 ^ 31 ∧ ∃ m' evlist', (evlistMachine l).step m call = .ok m' ∧
        Represents m' l (as ++ [a]) evlist' ∧ Indexed evlist')) := by
  have hlen : evlist.nrEntries = as.length := hidx.count.trans h.evsels.length_eq.symm
  cases hparse : profEvselParse call.str with
  | none =>
    exact .inl ⟨by simp [AddCall.addedAddr, hparse],
      by simp [evlistMachine, memEvlistAdd, hparse]⟩
  | some p =>
    cases halloc : call.alloc with
    | none =>
      exact .inl ⟨by simp [AddCall.addedAddr, halloc],
        by simp [evlistMachine, memEvlistAdd, hparse, halloc]⟩
    | some a =>
      refine .inr ⟨a, by simp [AddCall.addedAddr, hparse, halloc], ?_⟩
      rcases memEvlistAdd_represents h hparse halloc (hen a halloc) with
        ⟨hbig, hnone⟩ | ⟨hlt, m', hsome, hrep, -⟩
      · exact .inl ⟨hlen ▸ hbig, by simp [evlistMachine, hnone]⟩
      · exact .inr ⟨hlen ▸ hlt, m', _, by simp [evlistMachine, hsome], hrep, hidx.add call.str⟩

/-- **Every run** leaves the list of the selectors added, or ends where `nr_entries` is not an `int`
any more. -/
theorem evlistMachine_run {l : Addr} : ∀ {calls : List AddCall} {m : Mem} {as : List Addr}
    {evlist : ProfEvlist}, Represents m l as evlist → Indexed evlist → as.length < 2 ^ 31 →
      (evlistMachine l).Legal m calls →
      ((as ++ added calls).length < 2 ^ 31 ∧ ∃ m' evlist', (evlistMachine l).run m calls = .ok m' ∧
        Represents m' l (as ++ added calls) evlist' ∧ Indexed evlist') ∨
      (2 ^ 31 ≤ (as ++ added calls).length ∧ (evlistMachine l).run m calls = .error ())
  | [], m, as, evlist, h, hidx, hlt, _ => by
    simp only [added, List.filterMap_nil, List.append_nil]
    exact .inl ⟨hlt, m, evlist, rfl, h, hidx⟩
  | call :: calls, m, as, evlist, h, hidx, hlt, hlegal => by
    rcases evlistMachine_step h hidx hlegal.1 with
      ⟨hadd, hstep⟩ | ⟨a, hadd, ⟨hbig, hstep⟩ | ⟨hlt', m', evlist', hstep, h', hidx'⟩⟩
    · have hcons : added (call :: calls) = added calls := List.filterMap_cons_none hadd
      rw [hcons, Machine.run_cons_ok hstep]
      exact evlistMachine_run h hidx hlt (hlegal.2 m hstep)
    · have hcons : added (call :: calls) = a :: added calls := List.filterMap_cons_some hadd
      refine .inr ⟨?_, by simp only [Machine.run, hstep]⟩
      rw [hcons, List.length_append, List.length_cons]
      omega
    · have hcons : as ++ added (call :: calls) = (as ++ [a]) ++ added calls := by
        rw [added, List.filterMap_cons_some hadd, List.append_cons]
        rfl
      rw [hcons, Machine.run_cons_ok hstep]
      exact evlistMachine_run h' hidx' (by simpa using hlt') (hlegal.2 m' hstep)

/-! ## What the loops see -/

/-- `m'` is `m` but for what its selectors hold beside their `evlist` and `idx`: what opening,
enabling, disabling and closing them changes. -/
structure Mem.SameLists (m m' : Mem) : Prop where
  links : m'.links = m.links
  evlists : m'.evlists = m.evlists
  evsels : ∀ a, (m'.evsels a).map (fun e => (e.evlist, e.sel.idx)) =
    (m.evsels a).map fun e => (e.evlist, e.sel.idx)

structure EvlistShape (m : Mem) (l : Addr) (as : List Addr) : Prop where
  nodup : (l :: as).Nodup
  forward : ∀ fuel > as.length, walk Mem.nextEntry l fuel m = some as
  backward : ∀ fuel > as.length, walk Mem.prevEntry l fuel m = some as.reverse
  count : ∃ list, m.evlists l = some list ∧ list.nrEntries = as.length
  evsels : ∀ k a, as[k]? = some a →
    ∃ e, m.evsels a = some e ∧ e.sel.idx = k ∧ e.evlist = some l
  /-- `__read_count` on a running slot, for a list of at most 256 events. -/
  evIdx : as.length ≤ 256 → (∀ a ∈ as, ∀ e, m.evsels a = some e → Readable e.sel) →
    ∀ t, Recording t → ∀ c samples os, ∀ fuel > as.length, ∃ s,
      memReadCount c samples l fuel m t os = some (as, s) ∧ s.stored.map (·.1) = as ∧
      ∀ p ∈ s.stored, ∃ e, m.evsels p.1 = some e ∧ p.2.evIdx.toNat = e.sel.idx
  delete : ∀ os, ∀ fuel > as.length, ∃ m' os',
    memEvlistDelete l fuel m os = some (as.reverse, as, m', os') ∧ ∀ a ∈ l :: as, m'.Free a

theorem HasEvsels.same {m m' : Mem} (hsame : m.SameLists m') {l : Addr} :
    ∀ {as : List Addr} {es : List ProfEvsel}, HasEvsels m l as es →
      ∃ es', HasEvsels m' l as es' ∧ es'.map (·.idx) = es.map (·.idx)
  | [], es, h => ⟨es, h, rfl⟩
  | a :: as, _, h => by
    obtain ⟨e, es, rfl, ha, hes⟩ := hasEvsels_cons.1 h
    obtain ⟨es', hes', hidx⟩ := hes.same hsame
    have ha' := hsame.evsels a
    rw [ha, Option.map_some, Option.map_eq_some_iff] at ha'
    obtain ⟨⟨list, e'⟩, hmem, heq⟩ := ha'
    obtain ⟨rfl, he⟩ : list = some l ∧ e'.idx = e.idx := Prod.mk.inj heq
    exact ⟨e' :: es', hasEvsels_cons.2 ⟨e', es', rfl, hmem, hes'⟩, by simp [he, hidx]⟩

theorem Represents.same {m m' : Mem} (hsame : m.SameLists m') {l : Addr} {as : List Addr}
    {evlist : ProfEvlist} (h : Represents m l as evlist) (hidx : Indexed evlist) :
    ∃ evlist', Represents m' l as evlist' ∧ Indexed evlist' := by
  obtain ⟨es', hes', hmap⟩ := h.evsels.same hsame
  have hlen : es'.length = evlist.entries.length := by simpa using congrArg List.length hmap
  refine ⟨⟨es', evlist.nrEntries, evlist.pid⟩, ⟨?_, ?_, hes'⟩, ⟨hidx.count.trans hlen.symm, ?_⟩⟩
  · rw [hsame.links]
    exact h.ring
  · rw [hsame.evlists]
    exact h.list
  · rw [hmap, hlen]
    exact hidx.idx

/-- The selector at position `k`. -/
theorem Represents.getElem? {m : Mem} {l : Addr} {as : List Addr} {evlist : ProfEvlist}
    (h : Represents m l as evlist) (hidx : Indexed evlist) {k : Nat} {a : Addr}
    (ha : as[k]? = some a) : ∃ e, m.evsels a = some ⟨some l, e⟩ ∧ e.idx = k := by
  have hsel := congrArg (·[k]?) h.evsels
  simp only [List.getElem?_map, ha, Option.map_some] at hsel
  obtain ⟨e, he, hme⟩ := Option.map_eq_some_iff.1 hsel.symm
  have hk := congrArg (·[k]?) hidx.idx
  simp only [List.getElem?_map, he, Option.map_some,
    List.getElem?_range (List.getElem?_eq_some_iff.1 he).1, Option.some.injEq] at hk
  exact ⟨e, hme.symm, hk⟩

theorem HasEvsels.mem {m : Mem} {l : Addr} {as : List Addr} {es : List ProfEvsel}
    (h : HasEvsels m l as es) {e : ProfEvsel} (he : e ∈ es) :
    ∃ a ∈ as, m.evsels a = some ⟨some l, e⟩ := by
  have hmem : some ⟨some l, e⟩ ∈ as.map m.evsels := by
    rw [h]
    exact List.mem_map_of_mem he
  exact List.mem_map.1 hmem

theorem Represents.walk_next {m : Mem} {l : Addr} {as : List Addr} {evlist : ProfEvlist}
    (h : Represents m l as evlist) {fuel : Nat} (hfuel : as.length < fuel) :
    walk Mem.nextEntry l fuel m = some as := by
  obtain ⟨s, hrun, -⟩ : ∃ s, forEachEntry Mem.nextEntry l (fun _ m => some m) fuel m =
      some (as, s) ∧ s = m :=
    h.forward id (J := fun _ s => s = m) (fun _ _ hs => congrArg Mem.links hs)
      (fun _ _ _ s _ hs => ⟨s, rfl, hs⟩) rfl hfuel
  exact Option.map_eq_some_iff.2 ⟨_, hrun, rfl⟩

theorem Represents.walk_prev {m : Mem} {l : Addr} {as : List Addr} {evlist : ProfEvlist}
    (h : Represents m l as evlist) {fuel : Nat} (hfuel : as.length < fuel) :
    walk Mem.prevEntry l fuel m = some as.reverse := by
  obtain ⟨s, hrun, -⟩ : ∃ s, forEachEntry Mem.prevEntry l (fun _ m => some m) fuel m =
      some (as.reverse, s) ∧ s = m :=
    h.backward id (J := fun _ s => s = m) (fun _ _ hs => congrArg Mem.links hs)
      (fun _ _ _ s _ hs => ⟨s, rfl, hs⟩) rfl hfuel
  exact Option.map_eq_some_iff.2 ⟨_, hrun, rfl⟩

/-- A record stored for a list of at most 256 events names its selector. -/
theorem Represents.evIdx_eq {m : Mem} {l : Addr} {as : List Addr} {evlist : ProfEvlist}
    (h : Represents m l as evlist) (hidx : Indexed evlist) (hle : as.length ≤ 256)
    {stored : List (Addr × ProfRecord)} (hvisited : stored.map (·.1) = as)
    (hev : stored.map (·.2.evIdx) = (List.range as.length).map (BitVec.ofNat 8))
    {p : Addr × ProfRecord} (hp : p ∈ stored) :
    ∃ e, m.evsels p.1 = some e ∧ p.2.evIdx.toNat = e.sel.idx := by
  obtain ⟨k, hk⟩ := List.mem_iff_getElem?.1 hp
  have ha : as[k]? = some p.1 := by rw [← hvisited, List.getElem?_map, hk, Option.map_some]
  have hlt : k < as.length := (List.getElem?_eq_some_iff.1 ha).1
  have hi := congrArg (·[k]?) hev
  simp only [List.getElem?_map, hk, Option.map_some, List.getElem?_range hlt,
    Option.some.injEq] at hi
  obtain ⟨e, he, hpos⟩ := h.getElem? hidx ha
  refine ⟨_, he, ?_⟩
  rw [hi, BitVec.toNat_ofNat, hpos]
  exact Nat.mod_eq_of_lt (Nat.lt_of_lt_of_le hlt hle)

theorem Represents.shape {m : Mem} {l : Addr} {as : List Addr} {evlist : ProfEvlist}
    (h : Represents m l as evlist) (hidx : Indexed evlist) : EvlistShape m l as where
  nodup := h.ring.nodup
  forward _ hfuel := h.walk_next hfuel
  backward _ hfuel := h.walk_prev hfuel
  count := ⟨_, h.list, hidx.count.trans h.evsels.length_eq.symm⟩
  evsels k a ha := by
    obtain ⟨e, he, hk⟩ := h.getElem? hidx ha
    exact ⟨_, he, hk, rfl⟩
  evIdx hle hread t ht c samples os fuel hfuel := by
    have hes : ∀ e ∈ evlist.entries, Readable e := by
      intro e he
      obtain ⟨a, ha, hmem⟩ := h.evsels.mem he
      exact hread a ha _ hmem
    obtain ⟨s, hrun, -, hvisited, hev⟩ := memReadCount_represents h hes ht c samples os hfuel
    exact ⟨s, hrun, hvisited, fun p hp => h.evIdx_eq hidx hle hvisited hev hp⟩
  delete os fuel hfuel := by
    obtain ⟨m', hrun, hfree⟩ := memEvlistDelete_represents h os hfuel
    exact ⟨m', _, hrun, hfree⟩

/-- **An event list** keeps its shape through every sequence of calls of `__prof_evlist__add`,
successful or not. -/
theorem evlist_structure {pid : Int} {l : Addr} {m₀ m : Mem} {calls : List AddCall}
    (hnew : memEvlistNew pid l m₀ = some m) (hlegal : (evlistMachine l).Legal m calls) :
    match (evlistMachine l).run m calls with
    | .ok m' => ∀ m'', m'.SameLists m'' → EvlistShape m'' l (added calls)
    | .error _ => 2 ^ 31 ≤ (added calls).length := by
  obtain ⟨_, hnew', h⟩ := memEvlistNew_represents pid l m₀
  rw [hnew, Option.some.injEq] at hnew'
  subst hnew'
  rcases evlistMachine_run h (indexed_profEvlistNew pid) (by simp) hlegal with
    ⟨-, m', evlist', hrun, h', hidx⟩ | ⟨hbig, hrun⟩
  · rw [hrun]
    intro m'' hsame
    obtain ⟨evlist'', h'', hidx''⟩ := h'.same hsame hidx
    exact h''.shape hidx''
  · rw [hrun]
    simpa using hbig

/-- Two events, at 32 and 48; between them an unknown one, and one there is no memory for. -/
def fourCalls : List AddCall :=
  [⟨"cpu-cycles".toList, some 32⟩, ⟨"cycles".toList, some 48⟩, ⟨"instructions".toList, none⟩,
    ⟨"instructions".toList, some 48⟩]

theorem evlist_structure_fourCalls : ∃ m m', memEvlistNew 7 16 Mem.empty = some m ∧
    (evlistMachine 16).run m fourCalls = .ok m' ∧ EvlistShape m' 16 [32, 48] := by
  obtain ⟨m, hnew, hlegal, m', hrun⟩ : ∃ m, memEvlistNew 7 16 Mem.empty = some m ∧
      (evlistMachine 16).Legal m fourCalls ∧ ∃ m', (evlistMachine 16).run m fourCalls = .ok m' := by
    refine ⟨_, rfl, .cons ?_ rfl (.cons ?_ rfl (.cons ?_ rfl (.cons ?_ rfl trivial))), _, rfl⟩
    · rintro a ⟨⟩
      exact ⟨rfl, rfl, rfl⟩
    · rintro a ⟨⟩
      exact ⟨rfl, rfl, rfl⟩
    · rintro a ⟨⟩
    · rintro a ⟨⟩
      exact ⟨rfl, rfl, rfl⟩
  have hshape := evlist_structure hnew hlegal
  rw [hrun] at hshape
  exact ⟨m, m', hnew, hrun, hshape m' ⟨rfl, rfl, fun _ => rfl⟩⟩

end Lprofile.Probe
