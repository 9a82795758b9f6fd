import Lprofile.Probe.EvlistHeap

/-!
# Event lists side by side

Every thread has an event list of its own, and all of them are in one memory. An
`EvlistsOp` is a call for one of them: `prof_evlist__new`, `__prof_evlist__add`,
`prof_evlist__start`, `prof_evlist__stop` or `prof_evlist__delete`. `zalloc` returns any
address that is not in use, also one that was freed before, or nothing;
`prof_evlist__new` writes to what it returns without a check.

`EvlistState` says what the calls are for: the lists there are, by the address of their
struct, each with the addresses of its selectors. After any sequence of calls, on any
lists in any order, the memory holds these lists and nothing else, and the calls have
returned what they return on lists (`evlists_run`): no call touches freed memory or the
memory of another list, and what is not on a list any more is free.
-/

namespace Lprofile.Probe

open Lprofile.Lib

/-! ## Calls -/

/-- The body of a loop that changes the selector it is at. -/
def memEach (f : ProfEvsel → Os → ProfEvsel × Os) (a : Addr) (s : Mem × Os) :
    Option (Mem × Os) := do
  let e ← s.1.evsels a
  let r := f e.sel s.2
  some (s.1.setEvsel a { e with sel := r.1 }, r.2)

/-- The rounds of the first loop of `prof_evlist__start` from `pos` on; `false` is the jump to
`fail_close_evsel`. -/
def memOpenFrom (l : Addr) : Nat → Addr → Mem × Os → Option (Bool × Mem × Os)
  | 0, _, _ => none
  | fuel + 1, pos, s =>
    if pos = l then some (true, s)
    else do
      let e ← s.1.evsels pos
      let list ← s.1.evlists l
      let r := if e.sel.isOpen then (0, e.sel, s.2) else profEvselOpen e.sel list.pid s.2
      let m := s.1.setEvsel pos { e with sel := r.2.1 }
      if r.1 < 0 then some (false, m, r.2.2)
      else
        let pos' ← m.nextEntry pos
        memOpenFrom l fuel pos' (m, r.2.2)

/-- `prof_evlist__enable`. -/
def memEvlistEnable (l : Addr) (fuel : Nat) (s : Mem × Os) : Option (Mem × Os) :=
  (forEachEntry (fun s => s.1.nextEntry) l (memEach fun e os => (profEvselEnable e os).2) fuel
    s).map (·.2)

def memEvlistStart (l : Addr) (fuel : Nat) (s : Mem × Os) : Option (Int × Mem × Os) := do
  let pos ← s.1.nextEntry l
  let r ← memOpenFrom l fuel pos s
  if r.1 then
    let s ← memEvlistEnable l fuel r.2
    some (0, s)
  else
    let q ← forEachEntry (fun s => s.1.nextEntry) l (memEach closeIfOpen) fuel r.2
    some (-1, q.2)

def memEvlistStop (l : Addr) (fuel : Nat) (s : Mem × Os) : Option (Mem × Os) :=
  (forEachEntry (fun s => s.1.nextEntry) l (memEach profEvselDisable) fuel s).map (·.2)

inductive EvlistsOp where
  | new (pid : Int) (alloc : Option Addr)
  | add (l : Addr) (call : AddCall)
  | start (l : Addr)
  | stop (l : Addr)
  | delete (l : Addr)

/-- What the call returns, 0 if it is `void`, and the memory and the system after it; `fuel` is for
the loops. -/
def EvlistsOp.exec (fuel : Nat) (s : Mem × Os) : EvlistsOp → Option (Int × Mem × Os)
  | new _ none => none
  | new pid (some l) => (memEvlistNew pid l s.1).map fun m => (l, m, s.2)
  | add l call => (memEvlistAdd l call s.1).map fun r => (r.1, r.2, s.2)
  | start l => memEvlistStart l fuel s
  | stop l => (memEvlistStop l fuel s).map (0, ·)
  | delete l => (memEvlistDelete l fuel s.1 s.2).map fun r => (0, r.2.2)

def EvlistsOp.execAll (fuel : Nat) : List EvlistsOp → Mem × Os → Option (List Int × Mem × Os)
  | [], s => some ([], s)
  | op :: ops, s => do
    let r ← op.exec fuel s
    let q ← execAll fuel ops r.2
    some (r.1 :: q.1, q.2)

/-! ## What the calls are for -/

structure EvlistState where
  lists : Addr → Option (List Addr × ProfEvlist)
  os : Os

namespace EvlistState

/-- The address is that of no list and no selector. -/
def Unused (s : EvlistState) (a : Addr) : Prop :=
  ∀ l as ev, s.lists l = some (as, ev) → a ∉ l :: as

/-- The list at `l` is `ev` now, with its selectors at `as`. -/
def set (s : EvlistState) (l : Addr) (as : List Addr) (ev : ProfEvlist) : EvlistState :=
  { s with lists := Function.update s.lists l (some (as, ev)) }

end EvlistState

def EvlistsOp.apply (s : EvlistState) : EvlistsOp → Int × EvlistState
  | new _ none => (0, s)
  | new pid (some l) => (l, s.set l [] (profEvlistNew pid))
  | add l call =>
    match s.lists l, profEvselParse call.str, call.alloc with
    | some (as, ev), some _, some a => (1, s.set l (as ++ [a]) (profEvlistAdd ev call.str).2)
    | _, _, _ => (0, s)
  | start l =>
    match s.lists l with
    | some (as, ev) =>
      let r := profEvlistStart ev s.os
      (r.1, { s.set l as r.2.1 with os := r.2.2 })
    | none => (0, s)
  | stop l =>
    match s.lists l with
    | some (as, ev) =>
      let r := profEvlistStop ev s.os
      (0, { s.set l as r.1 with os := r.2 })
    | none => (0, s)
  | delete l =>
    match s.lists l with
    | some (_, ev) => (0, ⟨Function.update s.lists l none, profEvlistDelete ev s.os⟩)
    | none => (0, s)

def EvlistsOp.applyAll : List EvlistsOp → EvlistState → List Int × EvlistState
  | [], s => ([], s)
  | op :: ops, s =>
    let r := op.apply s
    let q := applyAll ops r.2
    (r.1 :: q.1, q.2)

/-- The list is there, `zalloc` keeps its promise and has memory for a list, and `nr_entries` is an
`int`. -/
def EvlistsOp.Legal (fuel : Nat) (s : EvlistState) : EvlistsOp → Prop
  | new _ alloc => ∃ l, alloc = some l ∧ s.Unused l
  | add l call => ∃ as ev, s.lists l = some (as, ev) ∧ ev.nrEntries + 1 < 2 ^ 31 ∧
      ∀ a, call.alloc = some a → s.Unused a
  | start l | stop l | delete l => ∃ as ev, s.lists l = some (as, ev) ∧ as.length < fuel

def EvlistsOp.LegalRun (fuel : Nat) : EvlistState → List EvlistsOp → Prop
  | _, [] => True
  | s, op :: ops => op.Legal fuel s ∧ LegalRun fuel (op.apply s).2 ops

/-- The address of the list the call is on. -/
def EvlistsOp.list : EvlistsOp → Option Addr
  | new _ alloc => alloc
  | add l _ | start l | stop l | delete l => some l

theorem EvlistsOp.apply_other {op : EvlistsOp} {s : EvlistState} {k : Addr}
    (h : op.list ≠ some k) : (op.apply s).2.lists k = s.lists k := by
  have hne : ∀ {l}, some l ≠ some k → k ≠ l := fun hl e => hl (e ▸ rfl)
  cases op with
  | new pid alloc =>
    cases alloc with
    | none => rfl
    | some l => exact Function.update_of_ne (hne h) ..
  | add l call =>
    rw [apply]
    split
    · exact Function.update_of_ne (hne h) ..
    · rfl
  | start l | stop l | delete l =>
    rw [apply]
    split
    · exact Function.update_of_ne (hne h) ..
    · rfl

/-- A list that no call is on stays as it is. -/
theorem EvlistsOp.applyAll_other {ops : List EvlistsOp} {s : EvlistState} {k : Addr}
    (h : ∀ op ∈ ops, op.list ≠ some k) : (applyAll ops s).2.lists k = s.lists k := by
  induction ops generalizing s with
  | nil => rfl
  | cons op ops ih =>
    rw [applyAll, ih fun op' hop => h op' (List.mem_cons_of_mem _ hop)]
    exact apply_other (h op List.mem_cons_self)

/-- The memory holds the lists, apart from each other, and nothing else. -/
structure HoldsLists (m : Mem) (s : EvlistState) : Prop where
  represents : ∀ {l as ev}, s.lists l = some (as, ev) → Represents m l as ev
  apart : ∀ {l as ev l' as' ev'}, s.lists l = some (as, ev) → s.lists l' = some (as', ev') →
    l ≠ l' → List.Disjoint (l :: as) (l' :: as')
  free : ∀ a, s.Unused a → m.Free a

/-! ## One list changes -/

section

variable {m m' : Mem} {s : EvlistState} {l : Addr}

theorem Mem.Same.free {a : Addr} (h : m.Same m' a) (hfree : m.Free a) : m'.Free a :=
  ⟨h.links.trans hfree.links, h.evsels.trans hfree.evsels, h.evlists.trans hfree.evlists⟩

theorem Mem.Same.trans {m'' : Mem} {a : Addr} (h : m.Same m' a) (h' : m'.Same m'' a) :
    m.Same m'' a :=
  ⟨h'.links.trans h.links, h'.evsels.trans h.evsels, h'.evlists.trans h.evlists⟩

theorem Mem.Same.refl (m : Mem) (a : Addr) : m.Same m a := ⟨rfl, rfl, rfl⟩

theorem Mem.same_setEvsel {a b : Addr} (e : EvselObj) (h : b ≠ a) : m.Same (m.setEvsel a e) b :=
  ⟨rfl, Function.update_of_ne h .., rfl⟩

theorem EvlistState.lists_set {as bs : List Addr} {ev ev' : ProfEvlist} {k : Addr}
    (h : (s.set l as ev).lists k = some (bs, ev')) :
    (k = l ∧ bs = as ∧ ev' = ev) ∨ (k ≠ l ∧ s.lists k = some (bs, ev')) := by
  by_cases hkl : k = l
  · subst hkl
    simp only [EvlistState.set, Function.update_self] at h
    cases h
    exact .inl ⟨rfl, rfl, rfl⟩
  · simp only [EvlistState.set, Function.update_of_ne hkl] at h
    exact .inr ⟨hkl, h⟩

theorem EvlistState.Unused.set {a : Addr} (h : s.Unused a) {as : List Addr} {ev : ProfEvlist}
    (ha : a ∉ l :: as) : (s.set l as ev).Unused a := by
  intro k bs ev' hk
  obtain ⟨rfl, rfl, -⟩ | ⟨-, hlist⟩ := EvlistState.lists_set hk
  · exact ha
  · exact h k bs ev' hlist

/-- A call that changes the memory of one list, and of an address that was not in use. -/
theorem HoldsLists.update (h : HoldsLists m s) {as' : List Addr} {ev' : ProfEvlist}
    (hrep : Represents m' l as' ev')
    (hsame : ∀ b, b ∉ l :: as' → m.Same m' b)
    (hown : ∀ b ∈ l :: as', s.Unused b ∨ ∃ as ev, s.lists l = some (as, ev) ∧ b ∈ l :: as)
    (hkeep : ∀ as ev, s.lists l = some (as, ev) → ∀ b ∈ as, b ∈ as') :
    HoldsLists m' (s.set l as' ev') := by
  -- the addresses of the other lists are not among those of this one
  have hother : ∀ {k bs ev}, k ≠ l → s.lists k = some (bs, ev) →
      List.Disjoint (k :: bs) (l :: as') := by
    intro k bs ev hkl hk b hb hb'
    rcases hown b hb' with hunused | ⟨as, ev₀, hl, hbl⟩
    · exact hunused k bs ev hk hb
    · exact h.apart hk hl hkl hb hbl
  refine ⟨fun hk => ?_, fun hk hk' hne => ?_, fun a ha => ?_⟩
  · obtain ⟨rfl, rfl, rfl⟩ | ⟨hkl, hlist⟩ := EvlistState.lists_set hk
    · exact hrep
    · exact (h.represents hlist).congr fun b hb => hsame b fun hb' => hother hkl hlist hb hb'
  · obtain ⟨rfl, rfl, rfl⟩ | ⟨hkl, hlist⟩ := EvlistState.lists_set hk
    · obtain ⟨rfl, -, -⟩ | ⟨hkl', hlist'⟩ := EvlistState.lists_set hk'
      · exact absurd rfl hne
      · exact (hother hkl' hlist').symm
    · obtain ⟨rfl, rfl, rfl⟩ | ⟨-, hlist'⟩ := EvlistState.lists_set hk'
      · exact hother hkl hlist
      · exact h.apart hlist hlist' hne
  · have hout : a ∉ l :: as' := ha l as' ev' (Function.update_self ..)
    refine (hsame a hout).free (h.free a fun k bs ev hk hmem => ?_)
    by_cases hkl : k = l
    · subst hkl
      refine hout ?_
      rcases List.mem_cons.1 hmem with rfl | hmem
      · exact List.mem_cons_self
      · exact List.mem_cons_of_mem _ (hkeep bs ev hk a hmem)
    · exact ha k bs ev (by simpa [EvlistState.set, Function.update_of_ne hkl] using hk) hmem

/-- A call that changes the selectors of one list, or the list itself, where they are. -/
theorem HoldsLists.change (h : HoldsLists m s) {as : List Addr} {ev ev' : ProfEvlist}
    (hl : s.lists l = some (as, ev)) (hrep : Represents m' l as ev')
    (hsame : ∀ b, b ∉ l :: as → m.Same m' b) : HoldsLists m' (s.set l as ev') := by
  refine h.update hrep hsame (fun b hb => .inr ⟨as, ev, hl, hb⟩) fun bs ev₀ hbs b hb => ?_
  rw [hl] at hbs
  cases hbs
  exact hb

/-- A list whose memory is freed. -/
theorem HoldsLists.remove (h : HoldsLists m s) {as : List Addr} {ev : ProfEvlist} {os : Os}
    (hl : s.lists l = some (as, ev)) (hfree : ∀ b ∈ l :: as, m'.Free b)
    (hsame : ∀ b, b ∉ l :: as → m.Same m' b) :
    HoldsLists m' ⟨Function.update s.lists l none, os⟩ := by
  have hlists : ∀ {k bs ev}, Function.update s.lists l none k = some (bs, ev) →
      k ≠ l ∧ s.lists k = some (bs, ev) := by
    intro k bs ev hk
    by_cases hkl : k = l
    · subst hkl
      rw [Function.update_self] at hk
      cases hk
    · rw [Function.update_of_ne hkl] at hk
      exact ⟨hkl, hk⟩
  refine ⟨fun hk => ?_, fun hk hk' hne => ?_, fun a ha => ?_⟩
  · obtain ⟨hkl, hlist⟩ := hlists hk
    exact (h.represents hlist).congr fun b hb => hsame b fun hb' => h.apart hlist hl hkl hb hb'
  · exact h.apart (hlists hk).2 (hlists hk').2 hne
  · by_cases hmem : a ∈ l :: as
    · exact hfree a hmem
    · refine (hsame a hmem).free (h.free a fun k bs ev' hk hak => ?_)
      by_cases hkl : k = l
      · subst hkl
        rw [hl] at hk
        cases hk
        exact hmem hak
      · exact ha k bs ev' (by simpa [Function.update_of_ne hkl] using hk) hak

end

/-! ## Loops over one list -/

/-- Nothing but the selectors at `as` is different. -/
structure Mem.SelectorsOnly (as : List Addr) (m m' : Mem) : Prop where
  links : m'.links = m.links
  evlists : m'.evlists = m.evlists
  evsels : ∀ b ∉ as, m'.evsels b = m.evsels b

section

variable {m m' : Mem} {l : Addr} {as : List Addr} {ev : ProfEvlist}

theorem Mem.SelectorsOnly.same (h : m.SelectorsOnly as m') {b : Addr} (hb : b ∉ as) :
    m.Same m' b :=
  ⟨congrFun h.links b, h.evsels b hb, congrFun h.evlists b⟩

/-- One round, and the rounds after it. -/
theorem Mem.SelectorsOnly.cons {a : Addr} {e : EvselObj}
    (h : (m.setEvsel a e).SelectorsOnly as m') : m.SelectorsOnly (a :: as) m' := by
  refine ⟨h.links, h.evlists, fun b hb => ?_⟩
  obtain ⟨hba, hout⟩ : b ≠ a ∧ b ∉ as := by simpa using hb
  exact (h.evsels b hout).trans (Function.update_of_ne hba ..)

theorem HasEvsels.setEvsel {a : Addr} {es : List ProfEvsel} (h : HasEvsels m l as es)
    (ha : a ∉ as) (e : EvselObj) : HasEvsels (m.setEvsel a e) l as es := by
  refine h.congr fun b hb => Function.update_of_ne ?_ ..
  rintro rfl
  exact ha hb

/-- The selector of a round is as the round left it when the rounds after it are over. -/
theorem Mem.SelectorsOnly.hasEvsels {a : Addr} {e : ProfEvsel} {es : List ProfEvsel}
    (h : (m.setEvsel a ⟨some l, e⟩).SelectorsOnly as m') (ha : a ∉ as)
    (hes : HasEvsels m' l as es) : HasEvsels m' l (a :: as) (e :: es) := by
  refine hasEvsels_cons.2 ⟨e, es, rfl, ?_, hes⟩
  rw [h.evsels a ha]
  exact Function.update_self ..

theorem Represents.selectors (h : Represents m l as ev) {es : List ProfEvsel}
    (hsel : m.SelectorsOnly as m') (hes : HasEvsels m' l as es) :
    Represents m' l as { ev with entries := es } := by
  refine ⟨?_, ?_, hes⟩
  · rw [hsel.links]
    exact h.ring
  · rw [hsel.evlists]
    exact h.list

theorem memEach_eq {a : Addr} {e : ProfEvsel} {os : Os} (f : ProfEvsel → Os → ProfEvsel × Os)
    (h : m.evsels a = some ⟨some l, e⟩) :
    memEach f a (m, os) = some (m.setEvsel a ⟨some l, (f e os).1⟩, (f e os).2) := by
  simp only [memEach, h, Option.bind_eq_bind, Option.bind_some]

end

/-- The rounds from the entries `as` on. -/
theorem memEach_rounds (f : ProfEvsel → Os → ProfEvsel × Os) {l : Addr} :
    ∀ {as : List Addr} {p : Addr} {es : List ProfEvsel} {m : Mem} {os : Os} {fuel : Nat},
      Seg m.links p as l → (l :: as).Nodup → HasEvsels m l as es → as.length < fuel →
      ∃ m', forEachFrom (fun s => s.1.nextEntry) l (memEach f) fuel (as.headD l) (m, os) =
          some (as, m', (forEach f es os).2) ∧
        HasEvsels m' l as (forEach f es os).1 ∧ m.SelectorsOnly as m'
  | [], _, es, m, os, fuel + 1, _, _, hes, _ => by
    obtain rfl : es = [] := List.map_eq_nil_iff.1 hes.symm
    exact ⟨m, by simp [forEachFrom, forEach], rfl, rfl, rfl, fun _ _ => rfl⟩
  | x :: xs, p, es, m, os, fuel + 1, hseg, hnodup, hes, hfuel => by
    obtain ⟨e, es, rfl, hx, hes⟩ := hasEvsels_cons.1 hes
    obtain ⟨hlx, hlxs, hxxs, hxs⟩ : l ≠ x ∧ l ∉ xs ∧ x ∉ xs ∧ xs.Nodup := by
      simpa [and_assoc] using hnodup
    obtain ⟨m', hrun, hes', hsel⟩ := memEach_rounds f (m := m.setEvsel x ⟨some l, (f e os).1⟩)
      hseg.2 (List.nodup_cons.2 ⟨hlxs, hxs⟩) (hes.setEvsel hxxs _) (Nat.lt_of_succ_lt_succ hfuel)
    have hnext : (m.setEvsel x ⟨some l, (f e os).1⟩).nextEntry x = some (xs.headD l) := by
      rw [Mem.nextEntry, Mem.setEvsel, hseg.1]
      rfl
    refine ⟨m', ?_, hsel.hasEvsels hxxs hes', hsel.cons⟩
    simp only [forEachFrom, List.headD_cons, hlx.symm, ↓reduceIte, Option.bind_eq_bind,
      memEach_eq f hx, hnext, hrun, Option.bind_some, forEach]

/-- A loop over the list does to its selectors what it does to the elements of a list. -/
theorem Represents.eachLoop {m : Mem} {l : Addr} {as : List Addr} {ev : ProfEvlist}
    (h : Represents m l as ev) (f : ProfEvsel → Os → ProfEvsel × Os) (os : Os) {fuel : Nat}
    (hfuel : as.length < fuel) :
    ∃ m', forEachEntry (fun s => s.1.nextEntry) l (memEach f) fuel (m, os) =
        some (as, m', (forEach f ev.entries os).2) ∧
      Represents m' l as { ev with entries := (forEach f ev.entries os).1 } ∧
      m.SelectorsOnly as m' := by
  obtain ⟨m', hrun, hes, hsel⟩ := memEach_rounds f h.ring.seg h.ring.nodup h.evsels hfuel
  have hfirst : m.nextEntry l = some (as.headD l) := h.ring.next_head
  refine ⟨m', ?_, h.selectors hsel hes, hsel⟩
  simp only [forEachEntry, hfirst, Option.bind_eq_bind, Option.bind_some, hrun]

/-- `openEach` in memory, from the entries `as` on. -/
theorem memOpenFrom_rounds {l : Addr} {list : EvlistObj} :
    ∀ {as : List Addr} {p : Addr} {es : List ProfEvsel} {m : Mem} (os : Os) {fuel : Nat},
      Seg m.links p as l → (l :: as).Nodup → m.evlists l = some list → HasEvsels m l as es →
      as.length < fuel →
      ∃ m', memOpenFrom l fuel (as.headD l) (m, os) =
          some ((openEach list.pid es os).1, m', (openEach list.pid es os).2.2) ∧
        HasEvsels m' l as (openEach list.pid es os).2.1 ∧ m.SelectorsOnly as m'
  | [], _, es, m, os, fuel + 1, _, _, _, hes, _ => by
    obtain rfl : es = [] := List.map_eq_nil_iff.1 hes.symm
    exact ⟨m, by simp [memOpenFrom, openEach], rfl, rfl, rfl, fun _ _ => rfl⟩
  | x :: xs, p, es, m, os, fuel + 1, hseg, hnodup, hlist, hes, hfuel => by
    obtain ⟨e, es, rfl, hx, hes⟩ := hasEvsels_cons.1 hes
    obtain ⟨hlx, hlxs, hxxs, hxs⟩ : l ≠ x ∧ l ∉ xs ∧ x ∉ xs ∧ xs.Nodup := by
      simpa [and_assoc] using hnodup
    obtain ⟨r, hr⟩ : ∃ r, r = if e.isOpen then (0, e, os) else profEvselOpen e list.pid os :=
      ⟨_, rfl⟩
    simp only [memOpenFrom, List.headD_cons, hlx.symm, ↓reduceIte, Option.bind_eq_bind, hx, hlist,
      Option.bind_some, openEach, ← hr]
    by_cases hneg : r.1 < 0
    · -- the jump out of the loop: the selectors after this one are as they were
      simp only [hneg, ↓reduceIte]
      refine ⟨_, rfl, ?_, ?_⟩
      · exact hasEvsels_cons.2 ⟨_, _, rfl, Function.update_self .., hes.setEvsel hxxs _⟩
      · refine ⟨rfl, rfl, fun b hb => Function.update_of_ne ?_ ..⟩
        rintro rfl
        exact hb List.mem_cons_self
    · obtain ⟨m', hrun, hes', hsel⟩ := memOpenFrom_rounds (m := m.setEvsel x ⟨some l, r.2.1⟩)
        r.2.2 hseg.2 (List.nodup_cons.2 ⟨hlxs, hxs⟩) hlist (hes.setEvsel hxxs _)
        (Nat.lt_of_succ_lt_succ hfuel)
      have hnext : (m.setEvsel x ⟨some l, r.2.1⟩).nextEntry x = some (xs.headD l) := by
        rw [Mem.nextEntry, Mem.setEvsel, hseg.1]
        rfl
      simp only [hneg, ↓reduceIte, hnext, Option.bind_some, hrun]
      exact ⟨m', rfl, hsel.hasEvsels hxxs hes', hsel.cons⟩

section

variable {m : Mem} {l : Addr} {as : List Addr} {ev : ProfEvlist}

theorem Mem.SelectorsOnly.trans {m' m'' : Mem} (h : m.SelectorsOnly as m')
    (h' : m'.SelectorsOnly as m'') : m.SelectorsOnly as m'' :=
  ⟨h'.links.trans h.links, h'.evlists.trans h.evlists,
    fun b hb => (h'.evsels b hb).trans (h.evsels b hb)⟩

theorem memEvlistStart_represents (h : Represents m l as ev) (os : Os) {fuel : Nat}
    (hfuel : as.length < fuel) :
    ∃ m', memEvlistStart l fuel (m, os) =
        some ((profEvlistStart ev os).1, m', (profEvlistStart ev os).2.2) ∧
      Represents m' l as (profEvlistStart ev os).2.1 ∧ m.SelectorsOnly as m' := by
  obtain ⟨m₁, hopen, hes, hsel⟩ :=
    memOpenFrom_rounds os h.ring.seg h.ring.nodup h.list h.evsels hfuel
  have h₁ := h.selectors hsel hes
  have hfirst : m.nextEntry l = some (as.headD l) := h.ring.next_head
  simp only [memEvlistStart, hfirst, Option.bind_eq_bind, Option.bind_some, hopen, profEvlistStart]
  cases hok : (openEach ev.pid ev.entries os).1 with
  | true =>
    obtain ⟨m₂, henable, h₂, hsel₂⟩ := h₁.eachLoop (fun e os => (profEvselEnable e os).2)
      (openEach ev.pid ev.entries os).2.2 hfuel
    simp only [↓reduceIte, memEvlistEnable, henable, Option.map_some, Option.bind_some,
      profEvlistEnable]
    exact ⟨m₂, rfl, h₂, hsel.trans hsel₂⟩
  | false =>
    obtain ⟨m₂, hclose, h₂, hsel₂⟩ := h₁.eachLoop closeIfOpen
      (openEach ev.pid ev.entries os).2.2 hfuel
    simp only [Bool.false_eq_true, ↓reduceIte, hclose, Option.bind_some]
    exact ⟨m₂, rfl, h₂, hsel.trans hsel₂⟩

theorem memEvlistStop_represents (h : Represents m l as ev) (os : Os) {fuel : Nat}
    (hfuel : as.length < fuel) :
    ∃ m', memEvlistStop l fuel (m, os) = some (m', (profEvlistStop ev os).2) ∧
      Represents m' l as (profEvlistStop ev os).1 ∧ m.SelectorsOnly as m' := by
  obtain ⟨m', hrun, hrep, hsel⟩ := h.eachLoop profEvselDisable os hfuel
  refine ⟨m', ?_, hrep, hsel⟩
  simp only [memEvlistStop, hrun, Option.map_some, profEvlistStop]

/-- The first loop of `prof_evlist__delete` changes nothing but the selectors it visits. -/
theorem memEvselClose_same {a b : Addr} {s s' : Mem × Os} (h : memEvselClose a s = some s')
    (hne : b ≠ a) : s.1.Same s'.1 b := by
  simp only [memEvselClose, Option.bind_eq_bind, Option.bind_eq_some_iff, Option.some.injEq] at h
  obtain ⟨e, -, rfl⟩ := h
  exact Mem.same_setEvsel _ hne

/-- The second loop changes, beside the selector it frees, the list heads before and after it. -/
theorem Deleting.same {x b : Addr} {xs : List Addr} {list : EvlistObj} {os : Os} {s s' : Mem × Os}
    (h : Deleting l as list os (x :: xs) s) (hround : memEvselDelete x s = some s')
    (hb : b ∉ l :: x :: xs) : s.1.Same s'.1 b := by
  obtain ⟨m, os₁⟩ := s
  obtain ⟨fs, hfs, -⟩ := h.evsels
  obtain ⟨e, -, -, hx, -⟩ := hasEvsels_cons.1 hfs
  obtain ⟨links, hdel, -, hframe⟩ := h.ring.delInit
  rw [memEvselDelete_eq hdel hx] at hround
  cases hround
  have hbx : b ≠ x := by
    rintro rfl
    exact hb (by simp)
  exact ⟨(Function.update_of_ne hbx ..).trans (hframe b hb), Function.update_of_ne hbx ..,
    Function.update_of_ne hbx ..⟩

/-- The second loop leaves what is not the list's as it is. -/
theorem Deleting.loop_same {list : EvlistObj} {os : Os} {s : Mem × Os} (hl : l ∉ as)
    (h : Deleting l as list os as s) {fuel : Nat} (hfuel : as.length < fuel)
    {r : List Addr × Mem × Os}
    (hrun : forEachEntrySafe (fun s => s.1.nextEntry) l memEvselDelete fuel s = some r) :
    ∀ b ∉ l :: as, s.1.Same r.2.1 b := by
  let I (xs : List Addr) (t : Mem × Os) : Prop :=
    Deleting l as list os xs t ∧ (∀ a ∈ xs, a ∈ as) ∧ ∀ b ∉ l :: as, s.1.Same t.1 b
  have hstep : ∀ x xs t, I (x :: xs) t → x ≠ l ∧ ∃ t', memEvselDelete x t = some t' ∧ I xs t' := by
    intro x xs t ⟨hdel, hsub, hsame⟩
    obtain ⟨t', hround, hdel'⟩ := hdel.round hl
    refine ⟨hdel.ring.ne_head List.mem_cons_self, t', hround, hdel',
      fun a ha => hsub a (List.mem_cons_of_mem _ ha), fun b hb => (hsame b hb).trans ?_⟩
    refine hdel.same hround fun hmem => hb ?_
    rcases List.mem_cons.1 hmem with rfl | hmem
    · exact List.mem_cons_self
    · exact List.mem_cons_of_mem _ (hsub b hmem)
  have hstart : I as s := ⟨h, fun _ ha => ha, fun b _ => .refl s.1 b⟩
  have hnext : ∀ xs t, I xs t → ∃ n, t.1.nextEntry (xs.headD l) = some n ∧
      (xs ≠ [] → n = xs.tail.headD l) := fun _ _ hI => hI.1.ring.next_first
  obtain ⟨t, hrun', -, -, hsame⟩ :=
    forEachEntrySafe_run (fun _ _ hI => hI.1.ring.next_head) hnext hstep hstart hfuel
  rw [hrun'] at hrun
  cases hrun
  exact hsame

/-- **`prof_evlist__delete`** leaves what is not the list's as it is. -/
theorem memEvlistDelete_same (h : Represents m l as ev) (os : Os) {fuel : Nat}
    (hfuel : as.length < fuel) {r : List Addr × List Addr × Mem × Os}
    (hrun : memEvlistDelete l fuel m os = some r) : ∀ b ∉ l :: as, m.Same r.2.2.1 b := by
  intro b hb
  obtain ⟨hbl, hbas⟩ : b ≠ l ∧ b ∉ as := by simpa using hb
  obtain ⟨m₁, hclose, h₁⟩ := h.closeLoop os hfuel
  have hsame₁ : m.Same m₁ b := by
    refine forEachEntry_keeps (P := fun s => m.Same s.1 b) hclose
      (fun a ha s s' hround hP => hP.trans (memEvselClose_same hround ?_)) (.refl m b)
    rintro rfl
    exact hbas (List.mem_reverse.1 ha)
  have hstart : Deleting l as ⟨ev.nrEntries, ev.pid⟩ (profEvlistDelete ev os) as
      (m₁, (forEachReverse profEvselClose ev.entries os).2) :=
    ⟨h₁.ring, h₁.list, ⟨_, h₁.evsels, rfl⟩, fun a ha hout => absurd ha hout⟩
  simp only [memEvlistDelete, hclose, Option.bind_eq_bind, Option.bind_some,
    Option.bind_eq_some_iff] at hrun
  obtain ⟨q, hdelete, list, -, hr⟩ := hrun
  cases hr
  have hsame₂ := hstart.loop_same (List.nodup_cons.1 h.ring.nodup).1 hfuel hdelete b hb
  refine hsame₁.trans (hsame₂.trans ⟨?_, ?_, ?_⟩)
  · exact Function.update_of_ne hbl ..
  · exact Function.update_of_ne hbl ..
  · exact (Function.update_of_ne hbl ..).trans (Function.update_of_ne hbl ..)

end

/-! ## Calls keep the lists -/

theorem memEvlistNew_same {pid : Int} {l b : Addr} {m m' : Mem}
    (h : memEvlistNew pid l m = some m') (hb : b ≠ l) : m.Same m' b := by
  have hinit : initListHead ((m.zeroLinks l).setEvlist l ⟨0, 0⟩).links l = _ :=
    initListHead_eq (Function.update_self ..)
  simp only [memEvlistNew, hinit, Option.bind_eq_bind, Option.bind_some,
    Option.bind_eq_some_iff] at h
  obtain ⟨list, -, h⟩ := h
  cases h
  exact ⟨(Function.update_of_ne hb ..).trans (Function.update_of_ne hb ..), rfl,
    (Function.update_of_ne hb ..).trans (Function.update_of_ne hb ..)⟩

/-- **One call** returns what it is to return, and the memory holds the lists again. -/
theorem EvlistsOp.exec_holds {m : Mem} {s : EvlistState} {fuel : Nat} {op : EvlistsOp}
    (h : HoldsLists m s) (hlegal : op.Legal fuel s) :
    ∃ m', op.exec fuel (m, s.os) = some ((op.apply s).1, m', (op.apply s).2.os) ∧
      HoldsLists m' (op.apply s).2 := by
  cases op with
  | new pid alloc =>
    obtain ⟨l, rfl, hunused⟩ := hlegal
    obtain ⟨m', hrun, hrep⟩ := memEvlistNew_represents pid l m
    refine ⟨m', by simp [exec, apply, hrun, EvlistState.set], h.update hrep (fun b hb => ?_)
      (fun b hb => ?_) fun as ev hl => ?_⟩
    · exact memEvlistNew_same hrun (by simpa using hb)
    · obtain rfl : b = l := by simpa using hb
      exact .inl hunused
    · exact absurd List.mem_cons_self (hunused l as ev hl)
  | add l call =>
    obtain ⟨as, ev, hl, hint, halloc⟩ := hlegal
    cases hparse : profEvselParse call.str with
    | none =>
      refine ⟨m, ?_, ?_⟩
      · simp [exec, apply, memEvlistAdd, hparse]
      · simpa [apply, hparse] using h
    | some p =>
      cases ha : call.alloc with
      | none =>
        refine ⟨m, ?_, ?_⟩
        · simp [exec, apply, memEvlistAdd, hparse, ha]
        · simpa [apply, hparse, ha] using h
      | some a =>
        have hunused := halloc a ha
        rcases memEvlistAdd_represents (h.represents hl) hparse ha (h.free a hunused) with
          ⟨hover, -⟩ | ⟨-, m', hrun, hrep, hsame⟩
        · omega
        · simp only [exec, apply, hrun, hl, hparse, ha]
          refine ⟨m', rfl, h.update hrep (fun b hb => hsame b ?_) (fun b hb => ?_)
            fun bs ev₀ hbs b hb => ?_⟩
          · simp at hb ⊢
            tauto
          · by_cases hba : b = a
            · exact .inl (hba ▸ hunused)
            · refine .inr ⟨as, ev, hl, ?_⟩
              simpa [hba] using hb
          · rw [hl] at hbs
            cases hbs
            exact List.mem_append_left _ hb
  | start l =>
    obtain ⟨as, ev, hl, hfuel⟩ := hlegal
    obtain ⟨m', hrun, hrep, hsel⟩ := memEvlistStart_represents (h.represents hl) s.os hfuel
    simp only [exec, apply, hl, hrun]
    have hnew : HoldsLists m' (s.set l as (profEvlistStart ev s.os).2.1) :=
      h.change hl hrep fun b hb => hsel.same fun hmem => hb (List.mem_cons_of_mem _ hmem)
    exact ⟨m', rfl, hnew.represents, hnew.apart, hnew.free⟩
  | stop l =>
    obtain ⟨as, ev, hl, hfuel⟩ := hlegal
    obtain ⟨m', hrun, hrep, hsel⟩ := memEvlistStop_represents (h.represents hl) s.os hfuel
    simp only [exec, apply, hl, hrun]
    have hnew : HoldsLists m' (s.set l as (profEvlistStop ev s.os).1) :=
      h.change hl hrep fun b hb => hsel.same fun hmem => hb (List.mem_cons_of_mem _ hmem)
    exact ⟨m', rfl, hnew.represents, hnew.apart, hnew.free⟩
  | delete l =>
    obtain ⟨as, ev, hl, hfuel⟩ := hlegal
    obtain ⟨m', hrun, hfree⟩ := memEvlistDelete_represents (h.represents hl) s.os hfuel
    simp only [exec, apply, hl, hrun]
    exact ⟨m', rfl, h.remove hl hfree (memEvlistDelete_same (h.represents hl) s.os hfuel hrun)⟩

theorem EvlistsOp.execAll_holds {fuel : Nat} {ops : List EvlistsOp} {m : Mem} {s : EvlistState}
    (h : HoldsLists m s) (hlegal : LegalRun fuel s ops) :
    ∃ m', execAll fuel ops (m, s.os) = some ((applyAll ops s).1, m', (applyAll ops s).2.os) ∧
      HoldsLists m' (applyAll ops s).2 := by
  induction ops generalizing m s with
  | nil => exact ⟨m, rfl, h⟩
  | cons op ops ih =>
    obtain ⟨m₁, hop, h₁⟩ := op.exec_holds h hlegal.1
    obtain ⟨m', hops, h'⟩ := ih h₁ hlegal.2
    refine ⟨m', ?_, h'⟩
    simp only [execAll, hop, hops, Option.bind_eq_bind, Option.bind_some, applyAll]

/-- The memory before the first call. -/
theorem holdsLists_empty (os : Os) : HoldsLists Mem.empty ⟨fun _ => none, os⟩ where
  represents h := by cases h
  apart h := by cases h
  free _ _ := ⟨rfl, rfl, rfl⟩

/-- What the lists hold is in use. -/
theorem HoldsLists.free_iff {m : Mem} {s : EvlistState} (h : HoldsLists m s) (a : Addr) :
    m.Free a ↔ s.Unused a :=
  ⟨fun hfree _ _ _ hl => (h.represents hl).not_mem hfree, h.free a⟩

/-- Two lists with one event each; the first is started and deleted, and the memory of its selector
is then that of a third. -/
def threeLists : List EvlistsOp :=
  [.new 7 (some 16), .add 16 ⟨"cpu-cycles".toList, some 32⟩, .new 8 (some 64),
    .add 64 ⟨"instructions".toList, some 48⟩, .start 16, .delete 16, .new 9 (some 32), .stop 64]

end Lprofile.Probe
