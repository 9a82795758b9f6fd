import Lprofile.Lib.Machine
import Lprofile.Lib.Ring
import Lprofile.Probe.Profile

/-!
# The event list in memory

In memory an event list is a ring of `list_head`s: `entries` of the `prof_evlist` and
`node` of each `prof_evsel`. Both are the first field of their struct, so the address
of the struct is that of its list head and `container_of` changes nothing. `Mem` maps
the addresses in use to list heads, selectors and lists; freed memory is not in use,
and to touch it is undefined (`none`), as is an `nr_entries` past the largest `int`.

`Represents m l as evlist` says that the memory at `l` is the list `evlist` of
`Probe.Evlist`, with the selectors at the addresses `as`. The operations on the memory
follow those on the list (`memEvlistAdd_represents`, `memEvlistDelete_represents`,
`memReadCount_represents`), so what is proved about lists is about the memory too.
-/

namespace Lprofile.Probe

open Lprofile.Lib

abbrev Addr := Nat

/-- `struct prof_evsel` in memory, but for its `node`. -/
structure EvselObj where
  evlist : Option Addr
  sel : ProfEvsel

/-- `struct prof_evlist` in memory, but for its `entries`. -/
structure EvlistObj where
  nrEntries : Nat
  pid : Int

structure Mem where
  links : Links Addr
  evsels : Addr → Option EvselObj
  evlists : Addr → Option EvlistObj

namespace Mem

def setEvsel (m : Mem) (a : Addr) (e : EvselObj) : Mem :=
  { m with evsels := Function.update m.evsels a (some e) }

def setEvlist (m : Mem) (l : Addr) (list : EvlistObj) : Mem :=
  { m with evlists := Function.update m.evlists l (some list) }

/-- The list head of a zeroed struct. -/
def zeroLinks (m : Mem) (a : Addr) : Mem :=
  { m with links := Function.update m.links a (some ⟨0, 0⟩) }

def free (m : Mem) (a : Addr) : Mem where
  links := Function.update m.links a none
  evsels := Function.update m.evsels a none
  evlists := Function.update m.evlists a none

/-- The address is not in use. -/
structure Free (m : Mem) (a : Addr) : Prop where
  links : m.links a = none
  evsels : m.evsels a = none
  evlists : m.evlists a = none

/-- What is at the address is the same in both memories. -/
structure Same (m m' : Mem) (a : Addr) : Prop where
  links : m'.links a = m.links a
  evsels : m'.evsels a = m.evsels a
  evlists : m'.evlists a = m.evlists a

/-- `list_next_entry` and `list_prev_entry`. -/
def nextEntry (m : Mem) (a : Addr) : Option Addr := (m.links a).map (·.next)

def prevEntry (m : Mem) (a : Addr) : Option Addr := (m.links a).map (·.prev)

def empty : Mem := ⟨fun _ => none, fun _ => none, fun _ => none⟩

end Mem

/-! ## Operations -/

/-- `prof_evlist__new`, when `zalloc` returns `l`. -/
def memEvlistNew (pid : Int) (l : Addr) (m : Mem) : Option Mem := do
  let m := (m.zeroLinks l).setEvlist l ⟨0, 0⟩
  let links ← initListHead m.links l
  let list ← m.evlists l
  some ({ m with links := links }.setEvlist l { list with pid := pid })

/-- `prof_evsel__new(NULL, name)`, when `zalloc` returns `a`. -/
def memEvselNew (name : CStr) (a : Addr) (m : Mem) : Mem :=
  (m.zeroLinks a).setEvsel a ⟨none, profEvselNew name⟩

def memEvselInit (attr : PerfEventAttr) (idx : Nat) (a : Addr) (m : Mem) : Option Mem := do
  let e ← m.evsels a
  let m := m.setEvsel a ⟨none, profEvselInit e.sel attr idx⟩
  let links ← initListHead m.links a
  some { m with links := links }

/-- A call of `__prof_evlist__add`: the text, and what `zalloc` returns if it is asked. -/
structure AddCall where
  str : CStr
  alloc : Option Addr

/-- The number added, 0 or 1, and the memory. -/
def memEvlistAdd (l : Addr) (call : AddCall) (m : Mem) : Option (Nat × Mem) :=
  match profEvselParse call.str, call.alloc with
  | some (name, attr), some a => do
    let m := memEvselNew name a m
    let list ← m.evlists l
    let m ← memEvselInit attr list.nrEntries a m
    let e ← m.evsels a
    let m := m.setEvsel a { e with evlist := some l }
    let links ← listAddTail m.links a l
    -- `nr_entries++` on an `int`
    if list.nrEntries + 1 < 2 ^ 31 then
      some (1, { m with links := links }.setEvlist l { list with nrEntries := list.nrEntries + 1 })
    else none
  | _, _ => some (0, m)

/-- The body of the first loop of `prof_evlist__delete`. -/
def memEvselClose (a : Addr) (s : Mem × Os) : Option (Mem × Os) := do
  let e ← s.1.evsels a
  let r := profEvselClose e.sel s.2
  some (s.1.setEvsel a { e with sel := r.1 }, r.2)

/-- The body of the second loop. -/
def memEvselDelete (a : Addr) (s : Mem × Os) : Option (Mem × Os) := do
  let links ← listDelInit s.1.links a
  let e ← s.1.evsels a
  some (({ s.1 with links := links }.setEvsel a { e with evlist := none }).free a,
    profEvselDelete e.sel s.2)

/-- `prof_evlist__delete`: the selectors visited by its two loops, and the memory and the system at
the end. -/
def memEvlistDelete (l : Addr) (fuel : Nat) (m : Mem) (os : Os) :
    Option (List Addr × List Addr × Mem × Os) := do
  let r ← forEachEntry (fun s => s.1.prevEntry) l memEvselClose fuel (m, os)
  let q ← forEachEntrySafe (fun s => s.1.nextEntry) l memEvselDelete fuel r.2
  let list ← q.2.1.evlists l
  some (r.1, q.1, (q.2.1.setEvlist l { list with nrEntries := 0 }).free l, q.2.2)

/-- The state of the loop of `__read_count`: the counter (a `uint8_t` where it is stored), the slot
and the system, and the records stored so far beside the selectors they are of. -/
structure ReadState where
  i : Nat
  slot : ProfTinfo
  os : Os
  stored : List (Addr × ProfRecord)

def readRound (c : ProbeCall) (samples : Nat → PmcSample) (m : Mem) (a : Addr) (s : ReadState) :
    Option ReadState := do
  let e ← m.evsels a
  let r ← (readEvent c s.i e.sel (samples s.i) s.slot s.os).toOption
  some ⟨s.i + 1, r.1, r.2, s.stored ++ [(a, r.1.records s.slot.nbRecord)]⟩

/-- `__read_count` on the list at `l`. -/
def memReadCount (c : ProbeCall) (samples : Nat → PmcSample) (l : Addr) (fuel : Nat) (m : Mem)
    (t : ProfTinfo) (os : Os) : Option (List Addr × ReadState) :=
  forEachEntry (fun _ => m.nextEntry) l (readRound c samples m) fuel ⟨0, t, os, []⟩

/-- The entries the pointers `next` lead through, from the list's head until they are back. -/
def walk (next : Mem → Addr → Option Addr) (l : Addr) (fuel : Nat) (m : Mem) : Option (List Addr) :=
  (forEachEntry next l (fun _ m => some m) fuel m).map (·.1)

/-! ## The memory of a list -/

/-- The selectors `es` of the list at `l` are at the addresses `as`. -/
def HasEvsels (m : Mem) (l : Addr) (as : List Addr) (es : List ProfEvsel) : Prop :=
  as.map m.evsels = es.map fun e => some ⟨some l, e⟩

/-- The memory at `l` is the list `evlist`; `as` are the addresses of its selectors. -/
structure Represents (m : Mem) (l : Addr) (as : List Addr) (evlist : ProfEvlist) : Prop where
  ring : Ring m.links l as
  list : m.evlists l = some ⟨evlist.nrEntries, evlist.pid⟩
  evsels : HasEvsels m l as evlist.entries

theorem hasEvsels_cons {m : Mem} {l a : Addr} {as : List Addr} {es : List ProfEvsel} :
    HasEvsels m l (a :: as) es ↔
      ∃ e es', es = e :: es' ∧ m.evsels a = some ⟨some l, e⟩ ∧ HasEvsels m l as es' := by
  cases es with
  | nil => simp [HasEvsels]
  | cons e es => simp [HasEvsels]

theorem HasEvsels.congr {m m' : Mem} {l : Addr} {as : List Addr} {es : List ProfEvsel}
    (h : HasEvsels m l as es) (heq : ∀ a ∈ as, m'.evsels a = m.evsels a) : HasEvsels m' l as es :=
  (List.map_congr_left heq).trans h

theorem HasEvsels.append {m : Mem} {l : Addr} {as bs : List Addr} {es fs : List ProfEvsel}
    (ha : HasEvsels m l as es) (hb : HasEvsels m l bs fs) :
    HasEvsels m l (as ++ bs) (es ++ fs) := by
  rw [HasEvsels, List.map_append, List.map_append, ha, hb]

theorem HasEvsels.reverse {m : Mem} {l : Addr} {as : List Addr} {es : List ProfEvsel}
    (h : HasEvsels m l as es) : HasEvsels m l as.reverse es.reverse := by
  rw [HasEvsels, List.map_reverse, List.map_reverse, h]

theorem HasEvsels.drop {m : Mem} {l : Addr} {as : List Addr} {es : List ProfEvsel}
    (h : HasEvsels m l as es) (k : Nat) : HasEvsels m l (as.drop k) (es.drop k) := by
  rw [HasEvsels, List.map_drop, List.map_drop, h]

theorem HasEvsels.length_eq {m : Mem} {l : Addr} {as : List Addr} {es : List ProfEvsel}
    (h : HasEvsels m l as es) : as.length = es.length := by
  simpa using congrArg List.length h

theorem memEvlistNew_represents (pid : Int) (l : Addr) (m : Mem) :
    ∃ m', memEvlistNew pid l m = some m' ∧ Represents m' l [] (profEvlistNew pid) := by
  have hinit : initListHead ((m.zeroLinks l).setEvlist l ⟨0, 0⟩).links l = _ :=
    initListHead_eq (Function.update_self ..)
  have hlist : ((m.zeroLinks l).setEvlist l ⟨0, 0⟩).evlists l = some ⟨0, 0⟩ :=
    Function.update_self ..
  refine ⟨⟨Function.update m.links l (some ⟨l, l⟩), m.evsels,
    Function.update m.evlists l (some ⟨0, pid⟩)⟩, ?_, ring_init _ l, Function.update_self .., rfl⟩
  simp only [memEvlistNew, hinit, hlist, Option.bind_eq_bind, Option.bind_some]
  simp [Mem.zeroLinks, Mem.setEvlist]

theorem Represents.congr {m m' : Mem} {l : Addr} {as : List Addr} {evlist : ProfEvlist}
    (h : Represents m l as evlist) (heq : ∀ a ∈ l :: as, m.Same m' a) :
    Represents m' l as evlist :=
  ⟨h.ring.congr fun a ha => (heq a ha).links, (heq l List.mem_cons_self).evlists.trans h.list,
    h.evsels.congr fun a ha => (heq a (List.mem_cons_of_mem _ ha)).evsels⟩

/-- A selector that is not in use is none of the list's. -/
theorem Represents.not_mem {m : Mem} {l a : Addr} {as : List Addr} {evlist : ProfEvlist}
    (h : Represents m l as evlist) (hfree : m.Free a) : a ∉ l :: as :=
  fun hmem => h.ring.inUse hmem hfree.links

/-- The memory before the new selector is linked in. -/
theorem memEvselInit_new (m : Mem) (name : CStr) (attr : PerfEventAttr) (idx : Nat) (a : Addr) :
    memEvselInit attr idx a (memEvselNew name a m) =
      some ⟨Function.update m.links a (some ⟨a, a⟩),
        Function.update m.evsels a (some ⟨none, profEvselInit (profEvselNew name) attr idx⟩),
        m.evlists⟩ := by
  have hsel : (memEvselNew name a m).evsels a = some ⟨none, profEvselNew name⟩ :=
    Function.update_self ..
  have hinit : initListHead (memEvselNew name a m).links a = _ :=
    initListHead_eq (Function.update_self ..)
  simp only [memEvselInit, hsel, Option.bind_eq_bind, Option.bind_some, Mem.setEvsel, hinit]
  simp [memEvselNew, Mem.zeroLinks, Mem.setEvsel]

theorem memEvlistAdd_represents {m : Mem} {l a : Addr} {as : List Addr} {evlist : ProfEvlist}
    (h : Represents m l as evlist) {call : AddCall} {name : CStr} {attr : PerfEventAttr}
    (hparse : profEvselParse call.str = some (name, attr)) (halloc : call.alloc = some a)
    (hfree : m.Free a) :
    (2 ^ 31 ≤ evlist.nrEntries + 1 ∧ memEvlistAdd l call m = none) ∨
    (evlist.nrEntries + 1 < 2 ^ 31 ∧ ∃ m', memEvlistAdd l call m = some (1, m') ∧
      Represents m' l (as ++ [a]) (profEvlistAdd evlist call.str).2 ∧
      ∀ b ∉ a :: l :: as, m.Same m' b) := by
  have hmem := h.not_mem hfree
  have hne : ∀ b ∈ l :: as, b ≠ a := fun b hb e => hmem (e ▸ hb)
  have hring : Ring (Function.update m.links a (some ⟨a, a⟩)) l as :=
    h.ring.congr fun b hb => Function.update_of_ne (hne b hb) ..
  obtain ⟨links, hadd, hring', hframe⟩ := hring.addTail hmem (Function.update_self ..)
  have hlist : (memEvselNew name a m).evlists l = some ⟨evlist.nrEntries, evlist.pid⟩ := h.list
  have hcall : memEvlistAdd l call m = if evlist.nrEntries + 1 < 2 ^ 31 then some (1,
      ⟨links, Function.update m.evsels a (some ⟨some l, profEvselInit (profEvselNew name) attr
        evlist.nrEntries⟩), Function.update m.evlists l
        (some ⟨evlist.nrEntries + 1, evlist.pid⟩)⟩) else none := by
    simp only [memEvlistAdd, hparse, halloc, hlist, memEvselInit_new, Option.bind_eq_bind,
      Option.bind_some, Function.update_self, Mem.setEvsel, hadd]
    simp [Mem.setEvlist]
  by_cases hlt : evlist.nrEntries + 1 < 2 ^ 31
  · rw [if_pos hlt] at hcall
    refine .inr ⟨hlt, _, hcall, ?_, fun b hb => ?_⟩
    · simp only [profEvlistAdd, hparse]
      refine ⟨hring', Function.update_self .., ?_⟩
      refine HasEvsels.append (h.evsels.congr fun b hb => ?_) ?_
      · exact Function.update_of_ne (hne b (List.mem_cons_of_mem _ hb)) ..
      · simp [HasEvsels]
    · obtain ⟨hba, hbl, -⟩ : b ≠ a ∧ b ≠ l ∧ b ∉ as := by simpa using hb
      exact ⟨(hframe b hb).trans (Function.update_of_ne hba ..), Function.update_of_ne hba ..,
        Function.update_of_ne hbl ..⟩
  · rw [if_neg hlt] at hcall
    exact .inl ⟨by omega, hcall⟩

/-- **Lists apart.** A call on one list leaves the others in memory as they are. -/
theorem memEvlistAdd_other {m m' : Mem} {l k : Addr} {as bs : List Addr}
    {evlist other : ProfEvlist} (h : Represents m l as evlist) (hk : Represents m k bs other)
    (hapart : List.Disjoint (k :: bs) (l :: as)) {call : AddCall}
    (hfree : ∀ a, call.alloc = some a → m.Free a) {n : Nat}
    (hadd : memEvlistAdd l call m = some (n, m')) : Represents m' k bs other := by
  cases hparse : profEvselParse call.str with
  | none =>
    simp only [memEvlistAdd, hparse] at hadd
    cases hadd
    exact hk
  | some p =>
    cases halloc : call.alloc with
    | none =>
      simp only [memEvlistAdd, hparse, halloc] at hadd
      cases hadd
      exact hk
    | some a =>
      rcases memEvlistAdd_represents h hparse halloc (hfree a halloc) with
        ⟨-, hnone⟩ | ⟨-, m₁, hsome, -, hsame⟩
      · rw [hnone] at hadd
        cases hadd
      · rw [hsome] at hadd
        cases hadd
        refine hk.congr fun b hb => hsame b fun hmem => ?_
        rcases List.mem_cons.1 hmem with rfl | hmem
        · exact hk.not_mem (hfree b halloc) hb
        · exact hapart hb hmem

/-! ## Walking through the list -/

/-- A body that leaves the list heads alone sees the selectors in order. -/
theorem Represents.forward {σ : Type} (mem : σ → Mem) {body : Addr → σ → Option σ} {m : Mem}
    {l : Addr} {as : List Addr} {evlist : ProfEvlist} (h : Represents m l as evlist)
    {J : List Addr → σ → Prop} (hlinks : ∀ done s, J done s → (mem s).links = m.links)
    (hbody : ∀ done x rest s, as = done ++ x :: rest → J done s →
      ∃ s', body x s = some s' ∧ J (done ++ [x]) s')
    {s : σ} {fuel : Nat} (hJ : J [] s) (hfuel : as.length < fuel) :
    ∃ s', forEachEntry (fun s => (mem s).nextEntry) l body fuel s = some (as, s') ∧ J as s' := by
  refine forEachEntry_run (fun s hJ => ?_) (fun done x rest s has hJ => ?_) hJ hfuel
  · rw [Mem.nextEntry, hlinks _ _ hJ, h.ring.next_head]
  · obtain ⟨s', hs', hJ'⟩ := hbody done x rest s has hJ
    have hx : x ∈ as := by simp [has]
    refine ⟨h.ring.ne_head hx, s', hs', ?_, hJ'⟩
    have hring := h.ring
    rw [has] at hring
    rw [Mem.nextEntry, hlinks _ _ hJ', hring.entry]
    rfl

theorem Represents.backward {σ : Type} (mem : σ → Mem) {body : Addr → σ → Option σ} {m : Mem}
    {l : Addr} {as : List Addr} {evlist : ProfEvlist} (h : Represents m l as evlist)
    {J : List Addr → σ → Prop} (hlinks : ∀ done s, J done s → (mem s).links = m.links)
    (hbody : ∀ done x rest s, as.reverse = done ++ x :: rest → J done s →
      ∃ s', body x s = some s' ∧ J (done ++ [x]) s')
    {s : σ} {fuel : Nat} (hJ : J [] s) (hfuel : as.length < fuel) :
    ∃ s', forEachEntry (fun s => (mem s).prevEntry) l body fuel s = some (as.reverse, s') ∧
      J as.reverse s' := by
  refine forEachEntry_run (fun s hJ => ?_) (fun done x rest s has hJ => ?_) hJ
    (by rwa [List.length_reverse])
  · rw [Mem.prevEntry, hlinks _ _ hJ, h.ring.prev_head]
  · obtain ⟨s', hs', hJ'⟩ := hbody done x rest s has hJ
    have hx : x ∈ as := List.mem_reverse.1 (by simp [has])
    refine ⟨h.ring.ne_head hx, s', hs', ?_, hJ'⟩
    rw [Mem.prevEntry, hlinks _ _ hJ', h.ring.prev_entry has]

/-- One round of the first loop of `prof_evlist__delete`. -/
theorem memEvselClose_eq {m : Mem} {os : Os} {l a : Addr} {e : ProfEvsel}
    (h : m.evsels a = some ⟨some l, e⟩) :
    memEvselClose a (m, os) =
      some (m.setEvsel a ⟨some l, (profEvselClose e os).1⟩, (profEvselClose e os).2) := by
  simp only [memEvselClose, h, Option.bind_eq_bind, Option.bind_some]

/-- What the first loop has done when it has been at `done`: the selectors there are closed, they
are `gs` now, and `fs` are still to come. -/
def Closing (m : Mem) (l : Addr) (as : List Addr) (es : List ProfEvsel) (os : Os)
    (done : List Addr) (s : Mem × Os) : Prop :=
  (s.1.links = m.links ∧ s.1.evlists = m.evlists) ∧ ∃ gs fs, HasEvsels s.1 l done gs ∧
    HasEvsels s.1 l (as.reverse.drop done.length) fs ∧
    (gs ++ (forEach profEvselClose fs s.2).1, (forEach profEvselClose fs s.2).2) =
      forEach profEvselClose es.reverse os

theorem Closing.round {m : Mem} {l x : Addr} {as done rest : List Addr} {es : List ProfEvsel}
    {os : Os} {s : Mem × Os} (hnodup : as.Nodup) (has : as.reverse = done ++ x :: rest)
    (h : Closing m l as es os done s) :
    ∃ s', memEvselClose x s = some s' ∧ Closing m l as es os (done ++ [x]) s' := by
  obtain ⟨hlists, gs, fs, hgs, hfs, hend⟩ := h
  rw [has, List.drop_left, hasEvsels_cons] at hfs
  obtain ⟨e, fs, rfl, hx, hfs⟩ := hfs
  rw [← List.nodup_reverse, has, List.nodup_append, List.nodup_cons] at hnodup
  obtain ⟨-, ⟨hxrest, -⟩, hdone⟩ := hnodup
  have hdrop : as.reverse.drop (done ++ [x]).length = rest := by
    rw [has, List.append_cons done x rest, List.drop_left]
  refine ⟨_, memEvselClose_eq hx, hlists, gs ++ [(profEvselClose e s.2).1], fs, ?_, ?_, ?_⟩
  · refine (hgs.congr fun a ha => ?_).append ?_
    · exact Function.update_of_ne (hdone a ha x List.mem_cons_self) ..
    · simp [HasEvsels, Mem.setEvsel]
  · rw [hdrop]
    refine hfs.congr fun a ha => Function.update_of_ne ?_ ..
    rintro rfl
    exact hxrest ha
  · rw [← hend]
    simp [forEach]

/-- **The first loop of `prof_evlist__delete`** closes the selectors, from the last to the first. -/
theorem Represents.closeLoop {m : Mem} {l : Addr} {as : List Addr} {evlist : ProfEvlist}
    (h : Represents m l as evlist) (os : Os) {fuel : Nat} (hfuel : as.length < fuel) :
    ∃ m', forEachEntry (fun s => s.1.prevEntry) l memEvselClose fuel (m, os) =
        some (as.reverse, m', (forEachReverse profEvselClose evlist.entries os).2) ∧
      Represents m' l as { evlist with
        entries := (forEachReverse profEvselClose evlist.entries os).1 } := by
  have hstart : Closing m l as evlist.entries os [] (m, os) :=
    ⟨⟨rfl, rfl⟩, [], _, rfl, h.evsels.reverse, rfl⟩
  obtain ⟨⟨m', os'⟩, hrun, ⟨hlinks, hlists⟩, gs, fs, hgs, hfs, hend⟩ :=
    h.backward Prod.fst (fun _ _ hJ => hJ.1.1)
      (fun _ _ _ _ has hJ => hJ.round (List.nodup_cons.1 h.ring.nodup).2 has) hstart hfuel
  rw [List.drop_length] at hfs
  obtain rfl : fs = [] := List.map_eq_nil_iff.1 hfs.symm
  simp only [forEach, List.append_nil] at hend
  have hres : forEachReverse profEvselClose evlist.entries os = (gs.reverse, os') := by
    rw [forEachReverse, ← hend]
  refine ⟨m', by rw [hrun, hres], ⟨?_, ?_, ?_⟩⟩
  · rw [hlinks]
    exact h.ring
  · rw [hlists]
    exact h.list
  · rw [hres]
    simpa using hgs.reverse

theorem Mem.free_free {m : Mem} {a b : Addr} (h : b = a ∨ m.Free b) : (m.free a).Free b := by
  by_cases hb : b = a
  · subst hb
    exact ⟨Function.update_self .., Function.update_self .., Function.update_self ..⟩
  · have hfree := h.resolve_left hb
    exact ⟨(Function.update_of_ne hb ..).trans hfree.links,
      (Function.update_of_ne hb ..).trans hfree.evsels,
      (Function.update_of_ne hb ..).trans hfree.evlists⟩

/-- What the second loop has still to do when `xs` are left: the selectors there are `fs`, and the
others are not in use any more. -/
structure Deleting (l : Addr) (as : List Addr) (list : EvlistObj) (os : Os) (xs : List Addr)
    (s : Mem × Os) : Prop where
  ring : Ring s.1.links l xs
  list : s.1.evlists l = some list
  evsels : ∃ fs, HasEvsels s.1 l xs fs ∧ deleteEach fs s.2 = os
  freed : ∀ a ∈ as, a ∉ xs → s.1.Free a

theorem memEvselDelete_eq {m : Mem} {os : Os} {l a : Addr} {e : ProfEvsel} {links : Links Addr}
    (hdel : listDelInit m.links a = some links) (h : m.evsels a = some ⟨some l, e⟩) :
    memEvselDelete a (m, os) =
      some ({ m with links := links }.free a, profEvselDelete e os) := by
  simp only [memEvselDelete, hdel, h, Option.bind_eq_bind, Option.bind_some]
  simp [Mem.free, Mem.setEvsel]

theorem Deleting.round {l x : Addr} {as xs : List Addr} {list : EvlistObj} {os : Os} {s : Mem × Os}
    (hl : l ∉ as) (h : Deleting l as list os (x :: xs) s) :
    ∃ s', memEvselDelete x s = some s' ∧ Deleting l as list os xs s' := by
  obtain ⟨m, os₁⟩ := s
  obtain ⟨fs, hfs, hend⟩ := h.evsels
  obtain ⟨e, fs, rfl, hx, hfs⟩ := hasEvsels_cons.1 hfs
  obtain ⟨links, hdel, hring, hframe⟩ := h.ring.delInit
  have hxl : x ≠ l := h.ring.ne_head List.mem_cons_self
  have hxs : x ∉ xs := (List.nodup_cons.1 (List.nodup_cons.1 h.ring.nodup).2).1
  have hne : ∀ a ∈ l :: xs, a ≠ x := by
    rintro a ha rfl
    exact (List.mem_cons.1 ha).elim hxl hxs
  refine ⟨_, memEvselDelete_eq hdel hx, ⟨?_, ?_, ⟨fs, ?_, hend⟩, fun a ha hout => ?_⟩⟩
  · exact hring.congr fun a ha => Function.update_of_ne (hne a ha) ..
  · exact (Function.update_of_ne hxl.symm ..).trans h.list
  · exact hfs.congr fun a ha => Function.update_of_ne (hne a (List.mem_cons_of_mem _ ha)) ..
  · -- freed now, or in an earlier round; such an entry's pointers do not change any more
    refine Mem.free_free ((em (a = x)).imp_right fun hax => ?_)
    have hal : a ≠ l := by
      rintro rfl
      exact hl ha
    have hfree := h.freed a ha (by simp [hax, hout])
    exact ⟨(hframe a (by simp [hal, hax, hout])).trans hfree.links, hfree.evsels, hfree.evlists⟩

/-- **The second loop of `prof_evlist__delete`** unlinks and frees the selectors in order. -/
theorem Deleting.loop {l : Addr} {as : List Addr} {list : EvlistObj} {os : Os} {s : Mem × Os}
    (hl : l ∉ as) (h : Deleting l as list os as s) {fuel : Nat} (hfuel : as.length < fuel) :
    ∃ s', forEachEntrySafe (fun s => s.1.nextEntry) l memEvselDelete fuel s = some (as, s') ∧
      Deleting l as list os [] s' :=
  forEachEntrySafe_run (fun _ _ hI => hI.ring.next_head) (fun _ _ hI => hI.ring.next_first)
    (fun _ _ _ hI => ⟨hI.ring.ne_head List.mem_cons_self, hI.round hl⟩) h hfuel

/-- **`prof_evlist__delete`** visits every selector once in each of its loops, leaves nothing of the
list in use, and does to the system what `profEvlistDelete` says. -/
theorem memEvlistDelete_represents {m : Mem} {l : Addr} {as : List Addr} {evlist : ProfEvlist}
    (h : Represents m l as evlist) (os : Os) {fuel : Nat} (hfuel : as.length < fuel) :
    ∃ m', memEvlistDelete l fuel m os = some (as.reverse, as, m', profEvlistDelete evlist os) ∧
      ∀ a ∈ l :: as, m'.Free a := by
  obtain ⟨m₁, hclose, h₁⟩ := h.closeLoop os hfuel
  have hl : l ∉ as := (List.nodup_cons.1 h.ring.nodup).1
  have hstart : Deleting l as ⟨evlist.nrEntries, evlist.pid⟩ (profEvlistDelete evlist os) as
      (m₁, (forEachReverse profEvselClose evlist.entries os).2) :=
    ⟨h₁.ring, h₁.list, ⟨_, h₁.evsels, rfl⟩, fun a ha hout => absurd ha hout⟩
  obtain ⟨⟨m₂, os₂⟩, hdelete, hend⟩ := hstart.loop hl hfuel
  obtain ⟨fs, hfs, hos⟩ := hend.evsels
  obtain rfl : fs = [] := List.map_eq_nil_iff.1 hfs.symm
  have hlist : m₂.evlists l = some ⟨evlist.nrEntries, evlist.pid⟩ := hend.list
  refine ⟨(m₂.setEvlist l ⟨0, evlist.pid⟩).free l, ?_, fun a ha => Mem.free_free ?_⟩
  · simp only [memEvlistDelete, hclose, hdelete, hlist, Option.bind_eq_bind, Option.bind_some,
      ← hos, deleteEach]
  · refine (em (a = l)).imp_right fun hal => ?_
    have hfree := hend.freed a ((List.mem_cons.1 ha).resolve_left hal) List.not_mem_nil
    exact ⟨hfree.links, hfree.evsels, (Function.update_of_ne hal ..).trans hfree.evlists⟩

/-! ## Reading -/

/-- A selector that `prof_evsel__rdpmc` can read. -/
def Readable (e : ProfEvsel) : Prop := e.isEnable = true → e.mmPage ≠ none

/-- A slot that takes another record. -/
structure Recording (t : ProfTinfo) : Prop where
  room : t.nbRecord < profRecordCache
  file : t.outputFile ≠ none

/-- One round of `__read_count`: the position is what it stores as `ev_idx`. -/
theorem readEvent_stores {t : ProfTinfo} (ht : Recording t) {e : ProfEvsel} (he : Readable e)
    (c : ProbeCall) (i : Nat) (s : PmcSample) (os : Os) :
    ∃ r, readEvent c i e s t os = .ok r ∧ Recording r.1 ∧
      (r.1.records t.nbRecord).evIdx = BitVec.ofNat 8 i := by
  obtain ⟨count, hcount⟩ : ∃ count, profEvselRdpmc e s = .ok count := by
    by_cases hen : e.isEnable
    · obtain ⟨page, hpage⟩ := Option.ne_none_iff_exists'.1 (he hen)
      exact ⟨s.count, by simp [profEvselRdpmc, hen, hpage]⟩
    · exact ⟨0, by simp [profEvselRdpmc, hen]⟩
  obtain ⟨f, hf⟩ := Option.ne_none_iff_exists'.1 ht.file
  have hroom := ht.room
  simp only [readEvent, hcount, hroom, ↓reduceIte]
  by_cases hfull : t.nbRecord + 1 = profRecordCache
  · simp only [hfull, ↓reduceIte, hf]
    have hpos : 0 < profRecordCache := by decide
    exact ⟨_, rfl, ⟨hpos, by simp⟩, by simp [ProbeCall.record]⟩
  · simp only [hfull, ↓reduceIte]
    refine ⟨_, rfl, ⟨?_, ht.file⟩, by simp [ProbeCall.record]⟩
    change t.nbRecord + 1 < profRecordCache
    omega

theorem readRound_eq {c : ProbeCall} {samples : Nat → PmcSample} {m : Mem} {l a : Addr}
    {e : ProfEvsel} {s : ReadState} {r : ProfTinfo × Os} (ha : m.evsels a = some ⟨some l, e⟩)
    (hr : readEvent c s.i e (samples s.i) s.slot s.os = .ok r) :
    readRound c samples m a s =
      some ⟨s.i + 1, r.1, r.2, s.stored ++ [(a, r.1.records s.slot.nbRecord)]⟩ := by
  simp only [readRound, ha, hr, Except.toOption, Option.bind_eq_bind, Option.bind_some]

/-- The loop of `__read_count` after the selectors `done`, when all of the list's are `es`. -/
structure ReadingAt (c : ProbeCall) (samples : Nat → PmcSample) (es : List ProfEvsel)
    (result : Except Fault (ProfTinfo × Os)) (done : List Addr) (s : ReadState) : Prop where
  count : s.i = done.length
  recording : Recording s.slot
  rest : readEvents c samples s.i (es.drop s.i) s.slot s.os = result
  visited : s.stored.map (·.1) = done
  evIdx : s.stored.map (·.2.evIdx) = (List.range s.i).map (BitVec.ofNat 8)

theorem ReadingAt.round {c : ProbeCall} {samples : Nat → PmcSample} {es : List ProfEvsel}
    {result : Except Fault (ProfTinfo × Os)} {m : Mem} {l x : Addr} {as done rest : List Addr}
    {s : ReadState} (hes : HasEvsels m l as es) (has : as = done ++ x :: rest)
    (hread : ∀ e ∈ es, Readable e) (h : ReadingAt c samples es result done s) :
    ∃ s', readRound c samples m x s = some s' ∧ ReadingAt c samples es result (done ++ [x]) s' := by
  obtain ⟨e, fs, hfs, hx, -⟩ : ∃ e fs, es.drop s.i = e :: fs ∧ m.evsels x = some ⟨some l, e⟩ ∧
      HasEvsels m l rest fs := by
    have hdrop := hes.drop s.i
    rwa [has, h.count, List.drop_left, hasEvsels_cons, ← h.count] at hdrop
  have he : e ∈ es := List.mem_of_mem_drop (hfs ▸ List.mem_cons_self)
  obtain ⟨r, hr, hrec, hidx⟩ :=
    readEvent_stores h.recording (hread e he) c s.i (samples s.i) s.os
  refine ⟨_, readRound_eq hx hr, ⟨?_, hrec, ?_, ?_, ?_⟩⟩
  · simp [h.count]
  · have hrest := h.rest
    rw [hfs, readEvents, hr] at hrest
    rw [← List.drop_drop, hfs]
    exact hrest
  · simp [h.visited]
  · simp [h.evIdx, hidx, List.range_succ]

/-- **`__read_count`** does to the slot and the system what the model on lists says, and stores the
positions of the selectors as `ev_idx`. -/
theorem memReadCount_represents {m : Mem} {l : Addr} {as : List Addr} {evlist : ProfEvlist}
    (h : Represents m l as evlist) (hread : ∀ e ∈ evlist.entries, Readable e) {t : ProfTinfo}
    (ht : Recording t) (c : ProbeCall) (samples : Nat → PmcSample) (os : Os) {fuel : Nat}
    (hfuel : as.length < fuel) :
    ∃ s, memReadCount c samples l fuel m t os = some (as, s) ∧
      readEvents c samples 0 evlist.entries t os = .ok (s.slot, s.os) ∧
      s.stored.map (·.1) = as ∧
      s.stored.map (·.2.evIdx) = (List.range as.length).map (BitVec.ofNat 8) := by
  have hstart : ReadingAt c samples evlist.entries (readEvents c samples 0 evlist.entries t os) []
      ⟨0, t, os, []⟩ := ⟨rfl, ht, rfl, rfl, rfl⟩
  obtain ⟨s, hrun, hend⟩ := h.forward (fun _ => m) (fun _ _ _ => rfl)
    (fun _ _ _ _ has hJ => hJ.round h.evsels has hread) hstart hfuel
  refine ⟨s, hrun, ?_, hend.visited, ?_⟩
  · rw [← hend.rest, hend.count, h.evsels.length_eq, List.drop_length]
    rfl
  · rw [hend.evIdx, hend.count]

end Lprofile.Probe
