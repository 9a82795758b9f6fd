import Lprofile.Lib.RingEdit
import Lprofile.Probe.EvlistHeap

/-!
# The operations of list.h

`Probe.EvlistHeap` uses two operations of `list.h`; here are all those on a
`list_head`, as code over the memory. `ListOp` is a call of one of them, `exec` runs
it.

What a call is for is `ListOp.apply`, on the entries of each list head (`HeadLists`). The
two agree: memory that holds the lists, after any sequence of legal calls, holds the
lists that `apply` gives (`listOps_run`). A call is legal when its arguments are what
its comment in the source asks for; what it leaves in an undefined state
is a head or an entry no longer, and may be used again as a new one.
-/

namespace Lprofile.Probe

open Lprofile.Lib

/-! ## The code -/

/-- `list_add`. -/
def listAddFirst (h : Links Addr) (new head : Addr) : Option (Links Addr) := do
  let l ← h head
  listAdd h new head l.next

/-- `list_del`. -/
def listDelNull (h : Links Addr) (entry : Addr) : Option (Links Addr) := do
  let l ← h entry
  let h ← listDel h l.prev l.next
  let h ← setNext h entry 0
  setPrev h entry 0

def listReplace (h : Links Addr) (old new : Addr) : Option (Links Addr) := do
  let o ← h old
  let h ← setNext h new o.next
  let n ← h new
  let h ← setPrev h n.next new
  let o ← h old
  let h ← setPrev h new o.prev
  let n ← h new
  setNext h n.prev new

def listReplaceInit (h : Links Addr) (old new : Addr) : Option (Links Addr) := do
  let h ← listReplace h old new
  initListHead h old

def listMove (h : Links Addr) (list head : Addr) : Option (Links Addr) := do
  let h ← listDelEntry h list
  listAddFirst h list head

def listMoveTail (h : Links Addr) (list head : Addr) : Option (Links Addr) := do
  let h ← listDelEntry h list
  listAddTail h list head

def listIsLast (h : Links Addr) (list head : Addr) : Option Bool :=
  (h list).map fun l => l.next == head

def listEmpty (h : Links Addr) (head : Addr) : Option Bool :=
  (h head).map fun l => l.next == head

def listEmptyCareful (h : Links Addr) (head : Addr) : Option Bool :=
  (h head).map fun l => l.next == head && l.next == l.prev

def listRotateLeft (h : Links Addr) (head : Addr) : Option (Links Addr) := do
  if !(← listEmpty h head) then
    let l ← h head
    listMoveTail h l.next head
  else some h

def listIsSingular (h : Links Addr) (head : Addr) : Option Bool := do
  let empty ← listEmpty h head
  let l ← h head
  some (!empty && l.next == l.prev)

/-- `__list_cut_position`. -/
def listCut (h : Links Addr) (list head entry : Addr) : Option (Links Addr) := do
  let e ← h entry
  let l ← h head
  let h ← setNext h list l.next
  let n ← h list
  let h ← setPrev h n.next list
  let h ← setPrev h list entry
  let h ← setNext h entry list
  let h ← setNext h head e.next
  setPrev h e.next head

def listCutPosition (h : Links Addr) (list head entry : Addr) : Option (Links Addr) := do
  if ← listEmpty h head then some h
  else
    let singular ← listIsSingular h head
    let l ← h head
    if singular && (l.next != entry && head != entry) then some h
    else if entry = head then initListHead h list
    else listCut h list head entry

/-- `__list_splice`. -/
def listJoin (h : Links Addr) (list prev next : Addr) : Option (Links Addr) := do
  let l ← h list
  let h ← setPrev h l.next prev
  let h ← setNext h prev l.next
  let h ← setNext h l.prev next
  setPrev h next l.prev

def listSplice (h : Links Addr) (list head : Addr) : Option (Links Addr) := do
  if !(← listEmpty h list) then
    let l ← h head
    listJoin h list head l.next
  else some h

def listSpliceTail (h : Links Addr) (list head : Addr) : Option (Links Addr) := do
  if !(← listEmpty h list) then
    let l ← h head
    listJoin h list l.prev head
  else some h

def listSpliceInit (h : Links Addr) (list head : Addr) : Option (Links Addr) := do
  if !(← listEmpty h list) then
    let l ← h head
    let h ← listJoin h list head l.next
    initListHead h list
  else some h

def listSpliceTailInit (h : Links Addr) (list head : Addr) : Option (Links Addr) := do
  if !(← listEmpty h list) then
    let l ← h head
    let h ← listJoin h list l.prev head
    initListHead h list
  else some h

inductive ListOp
  | init (list : Addr)
  | add (new head : Addr)
  | addTail (new head : Addr)
  | del (entry : Addr)
  | delInit (entry : Addr)
  | replace (old new : Addr)
  | replaceInit (old new : Addr)
  | move (list head : Addr)
  | moveTail (list head : Addr)
  | rotateLeft (head : Addr)
  | cutPosition (list head entry : Addr)
  | splice (list head : Addr)
  | spliceTail (list head : Addr)
  | spliceInit (list head : Addr)
  | spliceTailInit (list head : Addr)

def ListOp.exec (h : Links Addr) : ListOp → Option (Links Addr)
  | init list => initListHead h list
  | add new head => listAddFirst h new head
  | addTail new head => listAddTail h new head
  | del entry => listDelNull h entry
  | delInit entry => listDelInit h entry
  | replace old new => listReplace h old new
  | replaceInit old new => listReplaceInit h old new
  | move list head => listMove h list head
  | moveTail list head => listMoveTail h list head
  | rotateLeft head => listRotateLeft h head
  | cutPosition list head entry => listCutPosition h list head entry
  | splice list head => listSplice h list head
  | spliceTail list head => listSpliceTail h list head
  | spliceInit list head => listSpliceInit h list head
  | spliceTailInit list head => listSpliceTailInit h list head

/-! ## What the calls are for -/

/-- No entry of any list. It may be a head: what was on its list is then lost. -/
def NoEntry (ls : HeadLists Addr) (a : Addr) : Prop := ∀ head es, ls head = some es → a ∉ es

/-- An entry of a list, or a list of its own with no entries. -/
def OnList (ls : HeadLists Addr) (e : Addr) : Prop :=
  (∃ head es, ls head = some es ∧ e ∈ es) ∨ ls e = some []

def IsHead (ls : HeadLists Addr) (head : Addr) : Prop := ∃ es, ls head = some es

/-- The lists with `e` taken off its list. -/
def takeOff (ls : HeadLists Addr) (e : Addr) : HeadLists Addr :=
  HeadLists.forget (fun head => (ls head).map (·.erase e)) e

def entriesOf (ls : HeadLists Addr) (head : Addr) : List Addr := (ls head).getD []

def putFirst (ls : HeadLists Addr) (new head : Addr) : HeadLists Addr :=
  (ls.forget new).set head (new :: entriesOf ls head)

def putLast (ls : HeadLists Addr) (new head : Addr) : HeadLists Addr :=
  (ls.forget new).set head (entriesOf ls head ++ [new])

/-- `new` stands in for `old`, which is a head or an entry. -/
def standIn (ls : HeadLists Addr) (old new : Addr) : HeadLists Addr :=
  match ls old with
  | some es => (ls.forget old).set new es
  | none => HeadLists.forget
      (fun head => (ls head).map (·.map fun a => if a = old then new else a)) new

/-- The entries up to `entry` go from `head` to `list`. -/
def cutAt (ls : HeadLists Addr) (list head entry : Addr) : HeadLists Addr :=
  let es := entriesOf ls head
  if entry ∈ es then
    (ls.set list (es.take (es.idxOf entry + 1))).set head (es.drop (es.idxOf entry + 1))
  else if entry = head ∧ es ≠ [] then ls.set list []
  else ls

/-- The list `list` goes to `head`, with its entries `es` where they belong. -/
def joinTo (ls : HeadLists Addr) (list head : Addr) (es : List Addr) : HeadLists Addr :=
  if entriesOf ls list = [] then ls else (ls.forget list).set head es

def ListOp.apply (ls : HeadLists Addr) : ListOp → HeadLists Addr
  | init list => ls.set list []
  | add new head => putFirst ls new head
  | addTail new head => putLast ls new head
  | del entry => takeOff ls entry
  | delInit entry => (takeOff ls entry).set entry []
  | replace old new => standIn ls old new
  | replaceInit old new => (standIn ls old new).set old []
  | move list head => putFirst (takeOff ls list) list head
  | moveTail list head => putLast (takeOff ls list) list head
  | rotateLeft head => ls.set head ((entriesOf ls head).rotate 1)
  | cutPosition list head entry => cutAt ls list head entry
  | splice list head => joinTo ls list head (entriesOf ls list ++ entriesOf ls head)
  | spliceTail list head => joinTo ls list head (entriesOf ls head ++ entriesOf ls list)
  | spliceInit list head => (ls.set head (entriesOf ls list ++ entriesOf ls head)).set list []
  | spliceTailInit list head => (ls.set head (entriesOf ls head ++ entriesOf ls list)).set list []

/-- What the comments of the source ask of the arguments. -/
def ListOp.Legal (used : Addr → Bool) (ls : HeadLists Addr) : ListOp → Prop
  | init list => used list = true ∧ NoEntry ls list
  | add new head | addTail new head =>
    used new = true ∧ NoEntry ls new ∧ IsHead ls head ∧ new ≠ head
  | del entry | delInit entry => OnList ls entry
  | replace old new | replaceInit old new =>
    used new = true ∧ NoEntry ls new ∧ new ≠ old ∧ old ∉ entriesOf ls new ∧
      (IsHead ls old ∨ OnList ls old)
  | move list head | moveTail list head => OnList ls list ∧ IsHead ls head ∧ list ≠ head
  | rotateLeft head => IsHead ls head
  | cutPosition list head entry =>
    used list = true ∧ NoEntry ls list ∧ IsHead ls head ∧ list ≠ head ∧
      (entry ∈ head :: entriesOf ls head ∨ (entriesOf ls head).length ≤ 1)
  | splice list head | spliceTail list head | spliceInit list head | spliceTailInit list head =>
    IsHead ls list ∧ IsHead ls head ∧ list ≠ head

/-- Every call of the run is legal when it is made. -/
def LegalRun (used : Addr → Bool) : HeadLists Addr → List ListOp → Prop
  | _, [] => True
  | ls, op :: ops => op.Legal used ls ∧ LegalRun used (op.apply ls) ops

/-- The memory holds the lists, and they are apart. -/
structure Holds (h : Links Addr) (ls : HeadLists Addr) : Prop where
  ring : ∀ {head es}, ls head = some es → Ring h head es
  apart : ∀ {head es head' es'}, ls head = some es → ls head' = some es' → head ≠ head' →
    List.Disjoint (head :: es) (head' :: es')

def inUse (h : Links Addr) (a : Addr) : Bool := (h a).isSome

/-! ## The code in terms of links -/

section

variable {used : Addr → Bool} {p : Ptrs Addr} {ls : HeadLists Addr}

theorem holds_heap : Holds (heap used p) ls ↔ Drawn used p ls := by
  have hin : ∀ {head es}, Ring (heap used p) head es → ∀ a ∈ head :: es, used a = true := by
    intro head es hr a ha
    by_contra hnot
    exact hr.inUse ha (if_neg hnot)
  constructor
  · intro h
    exact ⟨fun hls => ((ring_heap_iff (hin (h.ring hls))).1 (h.ring hls)).2,
      fun hls => (h.ring hls).nodup, fun hls => hin (h.ring hls), h.apart⟩
  · intro h
    exact ⟨fun hls => (ring_heap_iff (h.inUse hls)).2 ⟨h.nodup hls, h.circle hls⟩, h.apart⟩

theorem initListHead_heap {a : Addr} (ha : used a = true) :
    initListHead (heap used p) a = some (heap used (p.link a a)) := by
  rw [initListHead, setNext_heap ha, Option.bind_some, setPrev_heap ha]
  rfl

theorem listAdd_heap {new prev next : Addr} (hnew : used new = true) (hprev : used prev = true)
    (hnext : used next = true) :
    listAdd (heap used p) new prev next = some (heap used ((p.link new next).link prev new)) := by
  simp only [listAdd, setPrev_heap hnext, setNext_heap hnew, setPrev_heap hnew, setNext_heap hprev,
    Option.bind_eq_bind, Option.bind_some]
  rfl

theorem listDel_heap {prev next : Addr} (hprev : used prev = true) (hnext : used next = true) :
    listDel (heap used p) prev next = some (heap used (p.link prev next)) := by
  simp only [listDel, setPrev_heap hnext, setNext_heap hprev, Option.bind_eq_bind, Option.bind_some]
  rfl

theorem listReplace_heap {old new : Addr} (hold : used old = true) (hnew : used new = true)
    (hnext : used (p.next old) = true)
    (hprev : used ((p.link new (p.next old)).prev old) = true) :
    listReplace (heap used p) old new = some (heap used
      ((p.link new (p.next old)).link ((p.link new (p.next old)).prev old) new)) := by
  simp only [listReplace, heap_of_used hold, heap_of_used hnew, setNext_heap hnew,
    Option.bind_eq_bind, Option.bind_some, Function.update_self, setPrev_heap hnext,
    setPrev_heap hnew]
  exact setNext_heap hprev _ _

theorem listCut_heap {list head entry : Addr} (hlist : used list = true) (hhead : used head = true)
    (hentry : used entry = true) (hnext : used (p.next head) = true)
    (hfirst : used (p.next entry) = true) :
    listCut (heap used p) list head entry = some (heap used
      (((p.link list (p.next head)).link entry list).link head (p.next entry))) := by
  simp only [listCut, heap_of_used hentry, heap_of_used hhead, heap_of_used hlist,
    setNext_heap hlist, setPrev_heap hlist, setPrev_heap hnext, setNext_heap hentry,
    setNext_heap hhead, setPrev_heap hfirst, Option.bind_eq_bind, Option.bind_some,
    Function.update_self]
  rfl

theorem listJoin_heap {list prev next : Addr} (hlist : used list = true) (hprev : used prev = true)
    (hnext : used next = true) (hfirst : used (p.next list) = true)
    (hlast : used (p.prev list) = true) :
    listJoin (heap used p) list prev next = some (heap used
      ((p.link prev (p.next list)).link (p.prev list) next)) := by
  simp only [listJoin, heap_of_used hlist, setPrev_heap hfirst, setNext_heap hprev,
    setNext_heap hlast, setPrev_heap hnext, Option.bind_eq_bind, Option.bind_some]
  rfl

/-! ## The links in terms of lists -/

theorem NoEntry.loose {a : Addr} (h : NoEntry ls a) : Loose (ls.forget a) a := by
  intro head es hls ha
  obtain ⟨hne, hls⟩ := HeadLists.forget_eq_some hls
  rcases List.mem_cons.1 ha with rfl | ha
  · exact hne rfl
  · exact h head es hls ha

theorem entriesOf_eq {head : Addr} {es : List Addr} (h : ls head = some es) :
    entriesOf ls head = es := by rw [entriesOf, h, Option.getD_some]

theorem drawn_init {a : Addr} (hd : Drawn used p ls) (ha : used a = true) (hno : NoEntry ls a) :
    Drawn used (p.link a a) (ls.set a []) := by
  rw [← HeadLists.set_forget]
  exact ((hd.forget a).link hno.loose hno.loose).set (circle_init p a) (List.nodup_singleton a)
    (by simpa using ha) (by simpa using hno.loose)

section

variable {new head : Addr} {es : List Addr}

theorem NoEntry.notMem (hno : NoEntry ls new) (hhead : ls head = some es) (hne : new ≠ head) :
    new ∉ head :: es := by
  simpa [hne] using hno head es hhead

/-- With a new member and a list taken out, both are free to be linked. -/
theorem loose_of_new (hd : Drawn used p ls) (hno : NoEntry ls new) (hhead : ls head = some es)
    (hne : new ≠ head) {a : Addr} (ha : a ∈ new :: head :: es) :
    Loose ((ls.forget new).forget head) a := by
  rcases List.mem_cons.1 ha with rfl | ha
  · exact hno.loose.forget head
  · exact (hd.forget new).loose (by rw [HeadLists.forget_of_ne hne.symm, hhead]) ha

theorem drawn_putFirst (hd : Drawn used p ls) (hnew : used new = true) (hno : NoEntry ls new)
    (hhead : ls head = some es) (hne : new ≠ head) :
    Drawn used ((p.link new (p.next head)).link head new) (putFirst ls new head) := by
  have hnext := (hd.circle hhead).next_mem (List.mem_cons_self : head ∈ head :: es)
  have hnodup := hd.nodup hhead
  have hnot := hno.notMem hhead hne
  have hloose : ∀ a ∈ new :: head :: es, Loose ((ls.forget new).forget head) a :=
    fun a ha => loose_of_new hd hno hhead hne ha
  rw [putFirst, entriesOf_eq hhead, ← HeadLists.set_forget]
  refine ((((hd.forget new).forget head).link (hloose new (by simp)) (hloose _ ?_)).link
    (hloose head (by simp)) (hloose new (by simp))).set ((hd.circle hhead).add hnodup hnot)
    ?_ ?_ ?_
  · exact List.mem_cons_of_mem _ hnext
  · exact (List.Perm.swap head new es).nodup_iff.1 (List.nodup_cons.2 ⟨hnot, hnodup⟩)
  · have := hd.inUse hhead
    grind
  · exact fun a ha => hloose a ((List.Perm.swap head new es).mem_iff.2 ha)

theorem drawn_putLast (hd : Drawn used p ls) (hnew : used new = true) (hno : NoEntry ls new)
    (hhead : ls head = some es) (hne : new ≠ head) :
    Drawn used ((p.link new head).link (p.prev head) new) (putLast ls new head) := by
  have hprev := (hd.circle hhead).prev_mem (List.mem_cons_self : head ∈ head :: es)
  have hnodup := hd.nodup hhead
  have hnot := hno.notMem hhead hne
  have hloose : ∀ a ∈ new :: head :: es, Loose ((ls.forget new).forget head) a :=
    fun a ha => loose_of_new hd hno hhead hne ha
  have hperm : (new :: head :: es).Perm (head :: (es ++ [new])) := by
    simpa using (List.perm_append_comm : ([new] ++ (head :: es)).Perm ((head :: es) ++ [new]))
  rw [putLast, entriesOf_eq hhead, ← HeadLists.set_forget]
  refine ((((hd.forget new).forget head).link (hloose new (by simp)) (hloose head (by simp))).link
    (hloose _ ?_) (hloose new (by simp))).set ((hd.circle hhead).addTail hnodup hnot) ?_ ?_ ?_
  · exact List.mem_cons_of_mem _ hprev
  · exact hperm.nodup_iff.1 (List.nodup_cons.2 ⟨hnot, hnodup⟩)
  · have := hd.inUse hhead
    grind
  · exact fun a ha => hloose a (hperm.mem_iff.2 ha)

end

section

variable {e head : Addr} {es : List Addr}

/-- Only the list of the entry changes. -/
theorem takeOff_eq (hd : Drawn used p ls) (hhead : ls head = some es) (he : e ∈ es) :
    takeOff ls e = ls.set head (es.erase e) := by
  have hne : e ≠ head := fun h => (List.nodup_cons.1 (hd.nodup hhead)).1 (h ▸ he)
  have hloose := hd.loose hhead (List.mem_cons_of_mem _ he)
  funext b
  rw [takeOff]
  by_cases hbe : b = e
  · subst hbe
    have hnone := hloose.none
    rw [HeadLists.forget_of_ne hne] at hnone
    rw [HeadLists.forget_self, HeadLists.set_of_ne hne, hnone]
  · rw [HeadLists.forget_of_ne hbe]
    by_cases hbh : b = head
    · subst hbh
      rw [HeadLists.set_self, hhead, Option.map_some]
    · rw [HeadLists.set_of_ne hbh]
      rcases hb : ls b with _ | xs
      · rfl
      · have hout := hloose b xs (by rw [HeadLists.forget_of_ne hbh, hb])
        rw [Option.map_some, List.erase_of_not_mem fun h => hout (List.mem_cons_of_mem _ h)]

theorem takeOff_alone (hd : Drawn used p ls) (he : ls e = some []) :
    takeOff ls e = ls.forget e := by
  have hloose := hd.loose he List.mem_cons_self
  funext b
  rw [takeOff]
  by_cases hbe : b = e
  · rw [hbe, HeadLists.forget_self, HeadLists.forget_self]
  · rw [HeadLists.forget_of_ne hbe, HeadLists.forget_of_ne hbe]
    rcases hb : ls b with _ | xs
    · rfl
    · have hout := hloose b xs (by rw [HeadLists.forget_of_ne hbe, hb])
      rw [Option.map_some, List.erase_of_not_mem fun h => hout (List.mem_cons_of_mem _ h)]

theorem drawn_takeOff (hd : Drawn used p ls) (he : OnList ls e) :
    Drawn used (p.link (p.prev e) (p.next e)) (takeOff ls e) := by
  rcases he with ⟨head, es, hhead, he⟩ | he
  · have hc := hd.circle hhead
    have hmem : e ∈ head :: es := List.mem_cons_of_mem _ he
    have hloose : ∀ a ∈ head :: es, Loose (ls.forget head) a := fun a ha => hd.loose hhead ha
    have hnodup := hd.nodup hhead
    have hsub : ∀ a ∈ head :: es.erase e, a ∈ head :: es := fun a ha =>
      (List.mem_cons.1 ha).elim (fun h => by simp [h]) fun h =>
        List.mem_cons_of_mem _ (List.mem_of_mem_erase h)
    rw [takeOff_eq hd hhead he, ← HeadLists.set_forget]
    refine ((hd.forget head).link (hloose _ (hc.prev_mem hmem)) (hloose _ (hc.next_mem hmem))).set
      ?_ ?_ (fun a ha => hd.inUse hhead a (hsub a ha)) fun a ha => hloose a (hsub a ha)
    · obtain ⟨xs, ys, rfl⟩ := List.append_of_mem he
      have hxs : e ∉ xs := by
        simp only [List.nodup_cons, List.nodup_append, List.mem_cons] at hnodup
        grind
      have hrot : Circle p (e :: (ys ++ head :: xs)) :=
        Circle.rotate.1 (show Circle p ((head :: xs) ++ e :: ys) from hc)
      have hperm : (e :: (ys ++ head :: xs)).Nodup :=
        (List.perm_append_comm : ((head :: xs) ++ e :: ys).Perm _).nodup_iff.1 hnodup
      obtain ⟨x, l, hxl⟩ : ∃ x l, ys ++ head :: xs = x :: l :=
        List.exists_cons_of_ne_nil (by simp)
      rw [hxl] at hrot hperm
      have hdel := hrot.del hperm
      rw [← hxl] at hdel
      rw [List.erase_append_right _ hxs, List.erase_cons_head]
      exact Circle.rotate.1 hdel
    · exact hnodup.sublist (List.Sublist.cons_cons _ List.erase_sublist)
  · have hc := hd.circle he
    have hloose := hd.loose he List.mem_cons_self
    rw [takeOff_alone hd he, hc.next_eq, hc.prev_eq]
    exact (hd.forget e).link hloose hloose

/-- Off its list, it can be put on one again. -/
theorem noEntry_takeOff (hd : Drawn used p ls) (e : Addr) : NoEntry (takeOff ls e) e := by
  intro b xs hb hmem
  obtain ⟨-, hb⟩ := HeadLists.forget_eq_some hb
  obtain ⟨ys, hys, rfl⟩ := Option.map_eq_some_iff.1 hb
  exact (List.Nodup.not_mem_erase (List.nodup_cons.1 (hd.nodup hys)).2) hmem

theorem isHead_takeOff (hhead : ls head = some es) (hne : e ≠ head) :
    takeOff ls e head = some (es.erase e) := by
  rw [takeOff, HeadLists.forget_of_ne hne.symm, hhead, Option.map_some]

end

section

variable {old new head : Addr} {es : List Addr}

/-- `new` takes the place of `old` in whatever circle it is in. -/
theorem circle_standIn {xs ys : List Addr} (hc : Circle p (xs ++ old :: ys))
    (hnodup : (xs ++ old :: ys).Nodup) (hnew : new ∉ xs ++ old :: ys) :
    Circle ((p.link new (p.next old)).link ((p.link new (p.next old)).prev old) new)
      (xs ++ new :: ys) := by
  have hrot : Circle p (old :: (ys ++ xs)) := Circle.rotate.1 hc
  refine Circle.rotate.1 (show Circle _ ((new :: ys) ++ xs) from ?_)
  rw [List.cons_append]
  have hperm : (xs ++ old :: ys).Perm (old :: (ys ++ xs)) := List.perm_append_comm
  rw [hperm.nodup_iff] at hnodup
  rw [hperm.mem_iff] at hnew
  generalize ys ++ xs = l at hrot hnodup hnew
  cases l with
  | nil =>
    -- `old` was alone: the second write of the source has changed its `prev` already
    have hnext : p.next old = old := hrot.next_eq
    have hprev : (p.link new (p.next old)).prev old = new := by
      rw [hnext]
      exact Function.update_self ..
    rw [hprev]
    exact circle_init _ new
  | cons x l =>
    have hnext : p.next old = x := hrot.next_eq
    have hprev : (p.link new (p.next old)).prev old = p.prev old := by
      rw [hnext]
      refine Function.update_of_ne ?_ ..
      rintro rfl
      exact (List.nodup_cons.1 hnodup).1 List.mem_cons_self
    rw [hprev]
    exact hrot.replace hnodup hnew

theorem map_standIn_of_notMem {l : List Addr} (hl : old ∉ l) :
    l.map (fun a => if a = old then new else a) = l := by
  refine (List.map_congr_left fun a ha => ?_).trans (List.map_id l)
  exact if_neg fun (h : a = old) => hl (h ▸ ha)

theorem map_standIn {xs ys : List Addr} (hnodup : (xs ++ old :: ys).Nodup) :
    (xs ++ old :: ys).map (fun a => if a = old then new else a) = xs ++ new :: ys := by
  have hout := (List.nodup_middle.1 hnodup : (old :: (xs ++ ys)).Nodup)
  rw [List.nodup_cons, List.mem_append, not_or] at hout
  rw [List.map_append, List.map_cons, map_standIn_of_notMem hout.1.1,
    map_standIn_of_notMem hout.1.2, if_pos rfl]

/-- Only the list of the entry changes. -/
theorem standIn_entry (hd : Drawn used p ls) (hhead : ls head = some es) (hold : old ∈ es)
    (hne : new ≠ head) :
    standIn ls old new =
      (ls.forget new).set head (es.map fun a => if a = old then new else a) := by
  have hloose := hd.loose hhead (List.mem_cons_of_mem _ hold)
  have hneold : old ≠ head := fun h => (List.nodup_cons.1 (hd.nodup hhead)).1 (h ▸ hold)
  have hnone := hloose.none
  rw [HeadLists.forget_of_ne hneold] at hnone
  simp only [standIn, hnone]
  funext b
  by_cases hbn : b = new
  · subst hbn
    rw [HeadLists.forget_self, HeadLists.set_of_ne hne, HeadLists.forget_self]
  · rw [HeadLists.forget_of_ne hbn]
    by_cases hbh : b = head
    · subst hbh
      rw [HeadLists.set_self, hhead, Option.map_some]
    · rw [HeadLists.set_of_ne hbh, HeadLists.forget_of_ne hbn]
      rcases hb : ls b with _ | xs
      · rfl
      · have hout := hloose b xs (by rw [HeadLists.forget_of_ne hbh, hb])
        rw [Option.map_some, map_standIn_of_notMem fun h => hout (List.mem_cons_of_mem _ h)]

/-- What `old->prev` is when it is read. -/
theorem prev_standIn (p : Ptrs Addr) (old new : Addr) :
    (p.link new (p.next old)).prev old = new ∨
      (p.link new (p.next old)).prev old = p.prev old := by
  by_cases h : old = p.next old
  · left
    rw [← h]
    exact Function.update_self ..
  · exact .inr (Function.update_of_ne h ..)

theorem drawn_standIn (hd : Drawn used p ls) (hnew : used new = true) (hno : NoEntry ls new)
    (hne : new ≠ old) (hlist : old ∉ entriesOf ls new) (hold : IsHead ls old ∨ OnList ls old) :
    Drawn used ((p.link new (p.next old)).link ((p.link new (p.next old)).prev old) new)
      (standIn ls old new) := by
  -- the list of `old`, from its head
  obtain ⟨head, es, hhead, hmem, hnh⟩ :
      ∃ head es, ls head = some es ∧ old ∈ head :: es ∧ new ≠ head := by
    rcases hold with ⟨es, hes⟩ | ⟨head, es, hes, hmem⟩ | hes
    · exact ⟨old, es, hes, by simp, hne⟩
    · refine ⟨head, es, hes, by simp [hmem], ?_⟩
      rintro rfl
      rw [entriesOf_eq hes] at hlist
      exact hlist hmem
    · exact ⟨old, [], hes, by simp, hne⟩
  have hc := hd.circle hhead
  have hnodup := hd.nodup hhead
  have hnot := hno.notMem hhead hnh
  have hloose : ∀ a ∈ new :: head :: es, Loose ((ls.forget new).forget head) a :=
    fun a ha => loose_of_new hd hno hhead hnh ha
  have hprev : (p.link new (p.next old)).prev old ∈ new :: head :: es := by
    rcases prev_standIn p old new with h | h
    · simp [h]
    · exact List.mem_cons_of_mem _ (h ▸ hc.prev_mem hmem)
  have hlinked := (((hd.forget new).forget head).link (hloose new (by simp))
    (hloose _ (List.mem_cons_of_mem _ (hc.next_mem hmem)))).link (hloose _ hprev)
    (hloose new (by simp))
  have hinuse := hd.inUse hhead
  rcases List.mem_cons.1 hmem with rfl | hmem
  · have hstand : standIn ls old new = ((ls.forget new).forget old).set new es := by
      simp only [standIn, hhead]
      rw [HeadLists.forget, HeadLists.forget, HeadLists.forget, Function.update_comm hne]
      exact (HeadLists.set_forget ..).symm
    rw [hstand]
    have hc' : Circle p ([] ++ old :: es) := hc
    refine hlinked.set (circle_standIn hc' hnodup hnot) ?_ ?_ ?_
    · simp only [List.nodup_cons, List.mem_cons, not_or] at hnodup hnot ⊢
      exact ⟨hnot.2, hnodup.2⟩
    · grind
    · exact fun a ha => hloose a (by grind)
  · obtain ⟨xs, ys, rfl⟩ := List.append_of_mem hmem
    have hc' : Circle p ((head :: xs) ++ old :: ys) := hc
    rw [standIn_entry hd hhead hmem hnh, map_standIn (List.nodup_cons.1 hnodup).2,
      ← HeadLists.set_forget]
    refine hlinked.set (circle_standIn hc' hnodup hnot) ?_ ?_ ?_
    · simp only [List.nodup_cons, List.nodup_append, List.mem_cons, List.mem_append] at *
      grind
    · grind
    · exact fun a ha => hloose a (by grind)

/-- `old` is on no list any more. -/
theorem noEntry_standIn (hd : Drawn used p ls) (hne : new ≠ old) :
    NoEntry (standIn ls old new) old := by
  intro b xs hb hmem
  rcases hold : ls old with _ | es
  · simp only [standIn, hold] at hb
    obtain ⟨-, hb⟩ := HeadLists.forget_eq_some hb
    obtain ⟨ys, -, rfl⟩ := Option.map_eq_some_iff.1 hb
    obtain ⟨a, -, ha⟩ := List.mem_map.1 hmem
    by_cases hao : a = old
    · rw [if_pos hao] at ha
      exact hne ha
    · rw [if_neg hao] at ha
      exact hao ha
  · simp only [standIn, hold] at hb
    by_cases hbn : b = new
    · rw [hbn, HeadLists.set_self, Option.some_inj] at hb
      subst hb
      exact (List.nodup_cons.1 (hd.nodup hold)).1 hmem
    · rw [HeadLists.set_of_ne hbn] at hb
      exact hd.loose hold List.mem_cons_self b xs hb (List.mem_cons_of_mem _ hmem)

end

section

variable {list head entry : Addr} {xs es : List Addr}

theorem drawn_cut (hd : Drawn used p ls) (hlist : used list = true) (hno : NoEntry ls list)
    (hne : list ≠ head) (hhead : ls head = some es) (hentry : entry ∈ es) :
    Drawn used (((p.link list (p.next head)).link entry list).link head (p.next entry))
      (cutAt ls list head entry) := by
  have hc := hd.circle hhead
  have hnodup := hd.nodup hhead
  have hnot := hno.notMem hhead hne
  have hinuse := hd.inUse hhead
  have hloose : ∀ a ∈ list :: head :: es, Loose ((ls.forget list).forget head) a :=
    fun a ha => loose_of_new hd hno hhead hne ha
  have hmem : entry ∈ head :: es := List.mem_cons_of_mem _ hentry
  have hhmem : head ∈ head :: es := List.mem_cons_self
  have hlinked := ((((hd.forget list).forget head).link (hloose list (by simp))
    (hloose _ (List.mem_cons_of_mem _ (hc.next_mem hhmem)))).link
    (hloose _ (List.mem_cons_of_mem _ hmem)) (hloose list (by simp))).link
    (hloose _ (List.mem_cons_of_mem _ hhmem))
    (hloose _ (List.mem_cons_of_mem _ (hc.next_mem hmem)))
  obtain ⟨xs, ys, rfl⟩ := List.append_of_mem hentry
  have hxs : entry ∉ xs := by
    simp only [List.nodup_cons, List.nodup_append, List.mem_cons] at hnodup
    grind
  have hidx : (xs ++ entry :: ys).idxOf entry = xs.length := by
    rw [List.idxOf_append_of_notMem hxs, List.idxOf_cons_self, Nat.add_zero]
  obtain ⟨hclist, hchead⟩ := hc.cut hnodup hnot
  have hcut : cutAt ls list head entry =
      (((ls.forget list).forget head).set list (xs ++ [entry])).set head ys := by
    rw [cutAt, entriesOf_eq hhead]
    simp only [hentry, ↓reduceIte, hidx, List.take_length_add_append, List.drop_length_add_append,
      List.take_succ_cons, List.take_zero, List.drop_succ_cons, List.drop_zero]
    funext b
    by_cases hbh : b = head
    · simp [hbh]
    · by_cases hbl : b = list
      · simp [hbl, HeadLists.set_of_ne hne]
      · simp [HeadLists.set_of_ne, HeadLists.forget_of_ne, hbh, hbl]
  have hperm : ((list :: (xs ++ [entry])) ++ head :: ys).Perm
      (list :: head :: (xs ++ entry :: ys)) := by
    refine .cons _ ?_
    simpa using (List.perm_middle : (xs ++ [entry] ++ head :: ys).Perm _)
  have hall := hperm.nodup_iff.2 (List.nodup_cons.2 ⟨hnot, hnodup⟩)
  obtain ⟨hnlist, hnhead, hdisj⟩ := List.nodup_append.1 hall
  have hin : ∀ a ∈ (list :: (xs ++ [entry])) ++ head :: ys,
      a ∈ list :: head :: (xs ++ entry :: ys) := fun a ha => hperm.mem_iff.1 ha
  have hinuse' : ∀ a ∈ list :: head :: (xs ++ entry :: ys), used a = true := by
    rintro a ha
    rcases List.mem_cons.1 ha with rfl | ha
    · exact hlist
    · exact hinuse a ha
  rw [hcut]
  refine (hlinked.set hclist hnlist ?_ ?_).set hchead hnhead ?_ ?_
  · exact fun a ha => hinuse' a (hin a (List.mem_append_left _ ha))
  · exact fun a ha => hloose a (hin a (List.mem_append_left _ ha))
  · exact fun a ha => hinuse' a (hin a (List.mem_append_right _ ha))
  · exact fun a ha => (hloose a (hin a (List.mem_append_right _ ha))).set
      fun hm => hdisj a hm a ha rfl

/-- Both ways to join: what is at `head` afterwards. -/
theorem drawn_join (hd : Drawn used p ls) (hlist : ls list = some xs) (hhead : ls head = some es)
    (hne : list ≠ head) {a b : Addr} {es' : List Addr} (hperm : es'.Perm (xs ++ es))
    (ha : a ∈ head :: es) (hb : b ∈ head :: es)
    (hc : Circle ((p.link a (p.next list)).link (p.prev list) b) (head :: es')) :
    Drawn used ((p.link a (p.next list)).link (p.prev list) b)
      ((ls.forget list).set head es') := by
  have hloose : ∀ a ∈ (list :: xs) ++ head :: es, Loose ((ls.forget list).forget head) a := by
    intro a ha
    rcases List.mem_append.1 ha with ha | ha
    · exact (hd.loose hlist ha).forget head
    · exact (hd.forget list).loose (by rw [HeadLists.forget_of_ne hne.symm, hhead]) ha
  have hnodup : ((list :: xs) ++ head :: es).Nodup :=
    List.nodup_append.2 ⟨hd.nodup hlist, hd.nodup hhead, fun a ha b hb hab =>
      hd.apart hlist hhead hne ha (hab ▸ hb)⟩
  have hperm' : (head :: es').Perm (xs ++ head :: es) :=
    (hperm.cons head).trans List.perm_middle.symm
  have hlmem : list ∈ list :: xs := List.mem_cons_self
  have hsub : ∀ c ∈ head :: es', c ∈ (list :: xs) ++ head :: es := fun c hc =>
    List.mem_cons_of_mem _ (hperm'.mem_iff.1 hc)
  rw [← HeadLists.set_forget]
  refine ((((hd.forget list).forget head).link (hloose a ?_) (hloose _ ?_)).link (hloose _ ?_)
    (hloose b ?_)).set hc ?_ ?_ fun c hc => hloose c (hsub c hc)
  · exact List.mem_append_right _ ha
  · exact List.mem_append_left _ ((hd.circle hlist).next_mem hlmem)
  · exact List.mem_append_left _ ((hd.circle hlist).prev_mem hlmem)
  · exact List.mem_append_right _ hb
  · exact hperm'.nodup_iff.2 (List.nodup_cons.1 hnodup).2
  · intro c hc
    rcases List.mem_append.1 (hsub c hc) with hc | hc
    · exact hd.inUse hlist c hc
    · exact hd.inUse hhead c hc

end

/-! ## One call -/

theorem OnList.exists_head {e : Addr} (he : OnList ls e) :
    ∃ head es, ls head = some es ∧ e ∈ head :: es := by
  rcases he with ⟨head, es, hes, he⟩ | he
  · exact ⟨head, es, hes, List.mem_cons_of_mem _ he⟩
  · exact ⟨e, [], he, List.mem_cons_self⟩

section

variable (hd : Drawn used p ls)
include hd

theorem next_used {head a : Addr} {es : List Addr} (hhead : ls head = some es)
    (ha : a ∈ head :: es) : used (p.next a) = true :=
  hd.inUse hhead _ ((hd.circle hhead).next_mem ha)

theorem prev_used {head a : Addr} {es : List Addr} (hhead : ls head = some es)
    (ha : a ∈ head :: es) : used (p.prev a) = true :=
  hd.inUse hhead _ ((hd.circle hhead).prev_mem ha)

theorem listAddFirst_drawn {new head : Addr} (hnew : used new = true) (hno : NoEntry ls new)
    (hhead : IsHead ls head) (hne : new ≠ head) :
    ∃ p', listAddFirst (heap used p) new head = some (heap used p') ∧
      Drawn used p' (putFirst ls new head) := by
  obtain ⟨es, hes⟩ := hhead
  refine ⟨_, ?_, drawn_putFirst hd hnew hno hes hne⟩
  have hused := hd.inUse hes head (by simp)
  rw [listAddFirst, heap_of_used hused]
  exact listAdd_heap hnew hused (next_used hd hes (by simp))

theorem listAddTail_drawn {new head : Addr} (hnew : used new = true) (hno : NoEntry ls new)
    (hhead : IsHead ls head) (hne : new ≠ head) :
    ∃ p', listAddTail (heap used p) new head = some (heap used p') ∧
      Drawn used p' (putLast ls new head) := by
  obtain ⟨es, hes⟩ := hhead
  refine ⟨_, ?_, drawn_putLast hd hnew hno hes hne⟩
  have hused := hd.inUse hes head (by simp)
  rw [listAddTail, heap_of_used hused]
  exact listAdd_heap hnew (prev_used hd hes (by simp)) hused

theorem listDelEntry_drawn {e : Addr} (he : OnList ls e) :
    ∃ p', listDelEntry (heap used p) e = some (heap used p') ∧ Drawn used p' (takeOff ls e) := by
  refine ⟨_, ?_, drawn_takeOff hd he⟩
  obtain ⟨head, es, hes, hmem⟩ := he.exists_head
  rw [listDelEntry, heap_of_used (hd.inUse hes e hmem)]
  exact listDel_heap (prev_used hd hes hmem) (next_used hd hes hmem)

/-- The pointers of an entry that is off its list do not matter. -/
theorem listDelNull_drawn {e : Addr} (he : OnList ls e) :
    ∃ p', listDelNull (heap used p) e = some (heap used p') ∧ Drawn used p' (takeOff ls e) := by
  obtain ⟨head, es, hes, hmem⟩ := he.exists_head
  have hused := hd.inUse hes e hmem
  obtain ⟨q, hdel, hq⟩ := listDelEntry_drawn hd he
  have hloose : Loose (takeOff ls e) e := by
    have hnone : takeOff ls e e = none := HeadLists.forget_self ..
    have := (noEntry_takeOff hd e).loose
    rwa [HeadLists.forget_of_none hnone] at this
  refine ⟨⟨Function.update q.next e 0, Function.update q.prev e 0⟩, ?_, hq.congr fun a ha => ?_⟩
  · have hcode : listDelNull (heap used p) e =
        (listDelEntry (heap used p) e).bind fun h => (setNext h e 0).bind (setPrev · e 0) := by
      simp [listDelNull, listDelEntry, heap_of_used hused]
    rw [hcode, hdel, Option.bind_some, setNext_heap hused, Option.bind_some, setPrev_heap hused]
  · have hne : a ≠ e := fun h => ha (h ▸ hloose)
    exact ⟨Function.update_of_ne hne .., Function.update_of_ne hne ..⟩

theorem listReplace_drawn {old new : Addr} (hnew : used new = true) (hno : NoEntry ls new)
    (hne : new ≠ old) (hlist : old ∉ entriesOf ls new) (hold : IsHead ls old ∨ OnList ls old) :
    ∃ p', listReplace (heap used p) old new = some (heap used p') ∧
      Drawn used p' (standIn ls old new) := by
  refine ⟨_, ?_, drawn_standIn hd hnew hno hne hlist hold⟩
  obtain ⟨head, es, hes, hmem⟩ : ∃ head es, ls head = some es ∧ old ∈ head :: es := by
    rcases hold with ⟨es, hes⟩ | hold
    · exact ⟨old, es, hes, List.mem_cons_self⟩
    · exact hold.exists_head
  refine listReplace_heap (hd.inUse hes old hmem) hnew (next_used hd hes hmem) ?_
  rcases prev_standIn p old new with h | h
  · rw [h]
    exact hnew
  · rw [h]
    exact prev_used hd hes hmem

theorem listEmpty_drawn {head : Addr} {es : List Addr} (hhead : ls head = some es) :
    listEmpty (heap used p) head = some (es == []) := by
  have hnext := (hd.circle hhead).next_eq
  have hnodup := hd.nodup hhead
  rw [listEmpty, heap_of_used (hd.inUse hhead head (by simp)), Option.map_some, hnext]
  cases es with
  | nil => simp
  | cons x xs =>
    have hne : x ≠ head := fun h => by simp [h] at hnodup
    simp [hne]

theorem listEmptyCareful_drawn {head : Addr} {es : List Addr} (hhead : ls head = some es) :
    listEmptyCareful (heap used p) head = some (es == []) := by
  have hempty := listEmpty_drawn hd hhead
  have hused := heap_of_used (hd.inUse hhead head (by simp)) p
  rw [listEmpty, hused, Option.map_some, Option.some_inj] at hempty
  rw [listEmptyCareful, hused, Option.map_some, hempty]
  cases es with
  | nil =>
    rw [(hd.circle hhead).next_eq, (hd.circle hhead).prev_eq]
    simp
  | cons x xs => rfl

theorem listIsSingular_drawn {head : Addr} {es : List Addr} (hhead : ls head = some es) :
    listIsSingular (heap used p) head = some (es.length == 1) := by
  have hc := hd.circle hhead
  have hnodup := hd.nodup hhead
  rw [listIsSingular, listEmpty_drawn hd hhead, heap_of_used (hd.inUse hhead head (by simp))]
  simp only [Option.bind_eq_bind, Option.bind_some, hc.next_eq, hc.prev_eq]
  rcases es with _ | ⟨x, xs⟩
  · simp
  · rcases List.eq_nil_or_concat' xs with rfl | ⟨ys, z, rfl⟩
    · simp
    · have hne : x ≠ z := by
        rintro rfl
        simp at hnodup
      rw [List.getLastD_cons, List.getLastD_concat]
      simp [hne]

theorem listMoveTail_drawn {list head : Addr} (hlist : OnList ls list) (hhead : IsHead ls head)
    (hne : list ≠ head) :
    ∃ p', listMoveTail (heap used p) list head = some (heap used p') ∧
      Drawn used p' (putLast (takeOff ls list) list head) := by
  obtain ⟨es, hes⟩ := hhead
  obtain ⟨b, xs, hxs, hmem⟩ := hlist.exists_head
  obtain ⟨q, hdel, hq⟩ := listDelEntry_drawn hd hlist
  obtain ⟨q', hadd, hq'⟩ := listAddTail_drawn hq (hd.inUse hxs list hmem) (noEntry_takeOff hd list)
    ⟨_, isHead_takeOff hes hne⟩ hne
  refine ⟨q', ?_, hq'⟩
  rw [listMoveTail, hdel, Option.bind_eq_bind, Option.bind_some, hadd]

theorem listMove_drawn {list head : Addr} (hlist : OnList ls list) (hhead : IsHead ls head)
    (hne : list ≠ head) :
    ∃ p', listMove (heap used p) list head = some (heap used p') ∧
      Drawn used p' (putFirst (takeOff ls list) list head) := by
  obtain ⟨es, hes⟩ := hhead
  obtain ⟨b, xs, hxs, hmem⟩ := hlist.exists_head
  obtain ⟨q, hdel, hq⟩ := listDelEntry_drawn hd hlist
  obtain ⟨q', hadd, hq'⟩ := listAddFirst_drawn hq (hd.inUse hxs list hmem) (noEntry_takeOff hd list)
    ⟨_, isHead_takeOff hes hne⟩ hne
  refine ⟨q', ?_, hq'⟩
  rw [listMove, hdel, Option.bind_eq_bind, Option.bind_some, hadd]

/-- The first entry of a list goes to its end. -/
theorem rotate_eq {head x : Addr} {xs : List Addr} (hhead : ls head = some (x :: xs)) :
    putLast (takeOff ls x) x head = ls.set head ((x :: xs).rotate 1) := by
  have hne : x ≠ head := by
    rintro rfl
    have := hd.nodup hhead
    simp at this
  have hnone := (hd.loose hhead (a := x) (by simp)).none
  rw [HeadLists.forget_of_ne hne] at hnone
  rw [putLast, entriesOf_eq (isHead_takeOff hhead hne), takeOff_eq hd hhead (by simp),
    List.erase_cons_head, List.rotate_cons_succ, List.rotate_zero]
  funext b
  by_cases hbh : b = head
  · simp [hbh]
  · by_cases hbx : b = x
    · subst hbx
      simp [HeadLists.set_of_ne hne, hnone]
    · simp [HeadLists.set_of_ne hbh, HeadLists.forget_of_ne hbx]

theorem listRotateLeft_drawn {head : Addr} (hhead : IsHead ls head) :
    ∃ p', listRotateLeft (heap used p) head = some (heap used p') ∧
      Drawn used p' (ls.set head ((entriesOf ls head).rotate 1)) := by
  obtain ⟨es, hes⟩ := hhead
  rw [entriesOf_eq hes, listRotateLeft, listEmpty_drawn hd hes]
  cases es with
  | nil =>
    refine ⟨p, rfl, ?_⟩
    rw [List.rotate_nil, HeadLists.set_of_some hes]
    exact hd
  | cons x xs =>
    have hne : x ≠ head := by
      rintro rfl
      have := hd.nodup hes
      simp at this
    rw [← rotate_eq hd hes]
    obtain ⟨q, hmove, hq⟩ :=
      listMoveTail_drawn hd (.inl ⟨head, _, hes, by simp⟩) ⟨_, hes⟩ hne
    refine ⟨q, ?_, hq⟩
    have hnext : p.next head = x := (hd.circle hes).next_eq
    simpa [heap_of_used (hd.inUse hes head (by simp)), hnext] using hmove

theorem listCutPosition_drawn {list head entry : Addr} (hlist : used list = true)
    (hno : NoEntry ls list) (hhead : IsHead ls head) (hne : list ≠ head)
    (hentry : entry ∈ head :: entriesOf ls head ∨ (entriesOf ls head).length ≤ 1) :
    ∃ p', listCutPosition (heap used p) list head entry = some (heap used p') ∧
      Drawn used p' (cutAt ls list head entry) := by
  obtain ⟨es, hes⟩ := hhead
  have hc := hd.circle hes
  have hnodup := hd.nodup hes
  have hused := hd.inUse hes head (by simp)
  rw [entriesOf_eq hes] at hentry
  rw [listCutPosition, listEmpty_drawn hd hes, listIsSingular_drawn hd hes, heap_of_used hused,
    hc.next_eq]
  simp only [Option.bind_eq_bind, Option.bind_some]
  rcases es with _ | ⟨x, xs⟩
  · refine ⟨p, rfl, ?_⟩
    simpa [cutAt, entriesOf_eq hes] using hd
  · have hxh : head ∉ x :: xs := (List.nodup_cons.1 hnodup).1
    rw [if_neg (by simp), List.headD_cons]
    by_cases heh : entry = head
    · subst heh
      refine ⟨p.link list list, ?_, ?_⟩
      · simpa using initListHead_heap hlist
      · rw [cutAt, entriesOf_eq hes, if_neg hxh, if_pos ⟨rfl, by simp⟩]
        exact drawn_init hd hlist hno
    by_cases hmem : entry ∈ x :: xs
    · refine ⟨_, ?_, drawn_cut hd hlist hno hne hes hmem⟩
      have hguard : ((x :: xs).length == 1 && (x != entry && head != entry)) = false := by
        rcases List.mem_cons.1 hmem with rfl | htail
        · simp
        · have : xs ≠ [] := List.ne_nil_of_mem htail
          simp [this]
      rw [hguard, if_neg (by simp), if_neg heh]
      have hin := List.mem_cons_of_mem head hmem
      exact listCut_heap hlist hused (hd.inUse hes entry hin) (next_used hd hes (by simp))
        (next_used hd hes hin)
    · -- not on the list: it has one entry, and the code leaves it
      have hlen : (x :: xs).length ≤ 1 := hentry.resolve_left (by simp [heh] at hmem ⊢; exact hmem)
      refine ⟨p, ?_, ?_⟩
      · have hxs : xs = [] := List.length_eq_zero_iff.1 (by simpa using hlen)
        have hxe : x ≠ entry := fun h => hmem (by simp [h])
        simp [hxs, hxe, Ne.symm heh]
      · rw [cutAt, entriesOf_eq hes, if_neg hmem, if_neg fun h => heh h.1]
        exact hd

section

variable {list head : Addr} {xs es : List Addr}

/-- The entries of `list` go to `head`, after it or before it. -/
theorem listJoin_drawn (hlist : ls list = some xs) (hhead : ls head = some es) (hxs : xs ≠ [])
    (hne : list ≠ head) :
    (∃ p', listJoin (heap used p) list head (p.next head) = some (heap used p') ∧
        Drawn used p' ((ls.forget list).set head (xs ++ es))) ∧
      ∃ p', listJoin (heap used p) list (p.prev head) head = some (heap used p') ∧
        Drawn used p' ((ls.forget list).set head (es ++ xs)) := by
  have hmem : head ∈ head :: es := List.mem_cons_self
  have hlmem : list ∈ list :: xs := List.mem_cons_self
  have hnext := (hd.circle hhead).next_mem hmem
  have hprev := (hd.circle hhead).prev_mem hmem
  have hnodup : ((list :: xs) ++ head :: es).Nodup :=
    List.nodup_append.2 ⟨hd.nodup hlist, hd.nodup hhead, fun a ha b hb hab =>
      hd.apart hlist hhead hne ha (hab ▸ hb)⟩
  have hinuse := hd.inUse hhead
  have hcode : ∀ {a b : Addr}, a ∈ head :: es → b ∈ head :: es →
      listJoin (heap used p) list a b =
        some (heap used ((p.link a (p.next list)).link (p.prev list) b)) := fun ha hb =>
    listJoin_heap (hd.inUse hlist list hlmem) (hinuse _ ha) (hinuse _ hb)
      (next_used hd hlist hlmem) (prev_used hd hlist hlmem)
  obtain ⟨x, l, rfl⟩ := List.exists_cons_of_ne_nil hxs
  refine ⟨⟨_, hcode hmem hnext, ?_⟩, ⟨_, hcode hprev hmem, ?_⟩⟩
  · exact drawn_join hd hlist hhead hne (.refl _) hmem hnext
      ((hd.circle hlist).splice (hd.circle hhead) hnodup)
  · exact drawn_join hd hlist hhead hne List.perm_append_comm hprev hmem
      ((hd.circle hlist).spliceTail (hd.circle hhead) hnodup)

/-- The emptied list is a list again. -/
theorem initListHead_joined (hlist : ls list = some xs) (hhead : ls head = some es)
    (hne : list ≠ head) {es' : List Addr} (hperm : es'.Perm (xs ++ es)) {q : Ptrs Addr}
    (hq : Drawn used q ((ls.forget list).set head es')) :
    ∃ p', initListHead (heap used q) list = some (heap used p') ∧
      Drawn used p' ((ls.set head es').set list []) := by
  have hused := hd.inUse hlist list (by simp)
  have hno : NoEntry ((ls.forget list).set head es') list := by
    intro b ys hb hmem
    by_cases hbh : b = head
    · rw [hbh, HeadLists.set_self, Option.some_inj] at hb
      rw [← hb, hperm.mem_iff, List.mem_append] at hmem
      rcases hmem with hmem | hmem
      · exact (List.nodup_cons.1 (hd.nodup hlist)).1 hmem
      · exact hd.apart hlist hhead hne (by simp) (List.mem_cons_of_mem _ hmem)
    · rw [HeadLists.set_of_ne hbh] at hb
      exact hd.loose hlist (by simp) b ys hb (List.mem_cons_of_mem _ hmem)
  refine ⟨_, initListHead_heap hused, ?_⟩
  have hset : (ls.set head es').set list [] = ((ls.forget list).set head es').set list [] := by
    funext b
    by_cases hbl : b = list
    · simp [hbl]
    · by_cases hbh : b = head
      · simp [hbh, HeadLists.set_of_ne hne.symm]
      · simp [HeadLists.set_of_ne, HeadLists.forget_of_ne, hbl, hbh]
  rw [hset]
  exact drawn_init hq hused hno

end

theorem listSplice_drawn {list head : Addr} (hlist : IsHead ls list) (hhead : IsHead ls head)
    (hne : list ≠ head) :
    (∃ p', listSplice (heap used p) list head = some (heap used p') ∧ Drawn used p'
        (joinTo ls list head (entriesOf ls list ++ entriesOf ls head))) ∧
      ∃ p', listSpliceTail (heap used p) list head = some (heap used p') ∧ Drawn used p'
        (joinTo ls list head (entriesOf ls head ++ entriesOf ls list)) := by
  obtain ⟨xs, hxs⟩ := hlist
  obtain ⟨es, hes⟩ := hhead
  rw [joinTo, joinTo, listSplice, listSpliceTail, listEmpty_drawn hd hxs, entriesOf_eq hxs,
    entriesOf_eq hes, heap_of_used (hd.inUse hes head (by simp))]
  by_cases hnil : xs = []
  · simp only [hnil, ↓reduceIte]
    exact ⟨⟨p, rfl, hd⟩, ⟨p, rfl, hd⟩⟩
  · obtain ⟨⟨q, hjoin, hq⟩, ⟨q', hjoin', hq'⟩⟩ := listJoin_drawn hd hxs hes hnil hne
    simp only [hnil, ↓reduceIte]
    exact ⟨⟨q, by simpa [hnil] using hjoin, hq⟩, ⟨q', by simpa [hnil] using hjoin', hq'⟩⟩

theorem listSpliceInit_drawn {list head : Addr} (hlist : IsHead ls list) (hhead : IsHead ls head)
    (hne : list ≠ head) :
    (∃ p', listSpliceInit (heap used p) list head = some (heap used p') ∧ Drawn used p'
        ((ls.set head (entriesOf ls list ++ entriesOf ls head)).set list [])) ∧
      ∃ p', listSpliceTailInit (heap used p) list head = some (heap used p') ∧ Drawn used p'
        ((ls.set head (entriesOf ls head ++ entriesOf ls list)).set list []) := by
  obtain ⟨xs, hxs⟩ := hlist
  obtain ⟨es, hes⟩ := hhead
  rw [listSpliceInit, listSpliceTailInit, listEmpty_drawn hd hxs, entriesOf_eq hxs,
    entriesOf_eq hes, heap_of_used (hd.inUse hes head (by simp))]
  by_cases hnil : xs = []
  · subst hnil
    have hsame : (ls.set head es).set list [] = ls := by
      rw [HeadLists.set_of_some hes, HeadLists.set_of_some hxs]
    rw [List.append_nil, List.nil_append, hsame]
    exact ⟨⟨p, rfl, hd⟩, ⟨p, rfl, hd⟩⟩
  · obtain ⟨⟨q, hjoin, hq⟩, ⟨q', hjoin', hq'⟩⟩ := listJoin_drawn hd hxs hes hnil hne
    obtain ⟨r, hinit, hr⟩ := initListHead_joined hd hxs hes hne (.refl _) hq
    obtain ⟨r', hinit', hr'⟩ := initListHead_joined hd hxs hes hne List.perm_append_comm hq'
    exact ⟨⟨r, by simp [hnil, hjoin, hinit], hr⟩, ⟨r', by simp [hnil, hjoin', hinit'], hr'⟩⟩

/-- **One call.** The code does not leave the memory in use, and does to it what the call is for. -/
theorem exec_drawn {op : ListOp} (hlegal : op.Legal used ls) :
    ∃ p', op.exec (heap used p) = some (heap used p') ∧ Drawn used p' (op.apply ls) := by
  cases op with
  | init list => exact ⟨_, initListHead_heap hlegal.1, drawn_init hd hlegal.1 hlegal.2⟩
  | add new head =>
    obtain ⟨hused, hno, hhead, hne⟩ := hlegal
    exact listAddFirst_drawn hd hused hno hhead hne
  | addTail new head =>
    obtain ⟨hused, hno, hhead, hne⟩ := hlegal
    exact listAddTail_drawn hd hused hno hhead hne
  | del entry => exact listDelNull_drawn hd hlegal
  | delInit entry =>
    obtain ⟨b, xs, hxs, hmem⟩ := OnList.exists_head hlegal
    obtain ⟨q, hdel, hq⟩ := listDelEntry_drawn hd hlegal
    have hused := hd.inUse hxs entry hmem
    refine ⟨q.link entry entry, ?_, drawn_init hq hused (noEntry_takeOff hd entry)⟩
    rw [ListOp.exec, listDelInit, hdel, Option.bind_eq_bind, Option.bind_some,
      initListHead_heap hused]
  | replace old new =>
    obtain ⟨hused, hno, hne, hlist, hold⟩ := hlegal
    exact listReplace_drawn hd hused hno hne hlist hold
  | replaceInit old new =>
    obtain ⟨hused, hno, hne, hlist, hold⟩ := hlegal
    obtain ⟨q, hrep, hq⟩ := listReplace_drawn hd hused hno hne hlist hold
    have hold' : used old = true := by
      rcases hold with ⟨es, hes⟩ | hold
      · exact hd.inUse hes old (by simp)
      · obtain ⟨b, xs, hxs, hmem⟩ := hold.exists_head
        exact hd.inUse hxs old hmem
    refine ⟨q.link old old, ?_, drawn_init hq hold' (noEntry_standIn hd hne)⟩
    rw [ListOp.exec, listReplaceInit, hrep, Option.bind_eq_bind, Option.bind_some,
      initListHead_heap hold']
  | move list head => exact listMove_drawn hd hlegal.1 hlegal.2.1 hlegal.2.2
  | moveTail list head => exact listMoveTail_drawn hd hlegal.1 hlegal.2.1 hlegal.2.2
  | rotateLeft head => exact listRotateLeft_drawn hd hlegal
  | cutPosition list head entry =>
    obtain ⟨hused, hno, hhead, hne, hentry⟩ := hlegal
    exact listCutPosition_drawn hd hused hno hhead hne hentry
  | splice list head => exact (listSplice_drawn hd hlegal.1 hlegal.2.1 hlegal.2.2).1
  | spliceTail list head => exact (listSplice_drawn hd hlegal.1 hlegal.2.1 hlegal.2.2).2
  | spliceInit list head => exact (listSpliceInit_drawn hd hlegal.1 hlegal.2.1 hlegal.2.2).1
  | spliceTailInit list head => exact (listSpliceInit_drawn hd hlegal.1 hlegal.2.1 hlegal.2.2).2

end

end

/-! ## Runs -/

/-- A run of calls. -/
def ListOp.execAll (h : Links Addr) (ops : List ListOp) : Option (Links Addr) :=
  ops.foldlM ListOp.exec h

def ListOp.applyAll (ls : HeadLists Addr) (ops : List ListOp) : HeadLists Addr :=
  ops.foldl ListOp.apply ls

theorem execAll_drawn {used : Addr → Bool} : ∀ {ops : List ListOp} {p : Ptrs Addr}
    {ls : HeadLists Addr}, Drawn used p ls → LegalRun used ls ops →
    ∃ p', ListOp.execAll (heap used p) ops = some (heap used p') ∧
      Drawn used p' (ListOp.applyAll ls ops)
  | [], p, ls, hd, _ => ⟨p, rfl, hd⟩
  | op :: ops, p, ls, hd, hlegal => by
    obtain ⟨q, hexec, hq⟩ := exec_drawn hd hlegal.1
    obtain ⟨q', hrun, hq'⟩ := execAll_drawn hq hlegal.2
    refine ⟨q', ?_, hq'⟩
    rw [ListOp.execAll, List.foldlM_cons, hexec]
    exact hrun

/-- `list_for_each` and `list_for_each_prev`, with a body that does nothing. -/
def listForEach (fuel : Nat) (h : Links Addr) (head : Addr) : Option (List Addr) :=
  (forEachEntry (fun h a => (h a).map (·.next)) head (fun _ h => some h) fuel h).map (·.1)

def listForEachPrev (fuel : Nat) (h : Links Addr) (head : Addr) : Option (List Addr) :=
  (forEachEntry (fun h a => (h a).map (·.prev)) head (fun _ h => some h) fuel h).map (·.1)

section

variable {h : Links Addr} {head : Addr} {es : List Addr} (hr : Ring h head es)
include hr

theorem listForEach_ring {fuel : Nat} (hfuel : es.length < fuel) :
    listForEach fuel h head = some es := by
  obtain ⟨s, hrun, -⟩ : ∃ s, forEachEntry (fun h a => (h a).map (·.next)) head
      (fun _ h => some h) fuel h = some (es, s) ∧ s = h := by
    refine forEachEntry_run (J := fun _ s => s = h) ?_ ?_ rfl hfuel
    · rintro _ rfl
      exact hr.next_head
    · rintro done x rest _ hes rfl
      have hx := hr.ne_head (x := x) (by simp [hes])
      rw [hes] at hr
      exact ⟨hx, _, rfl, by rw [hr.entry]; rfl, rfl⟩
  rw [listForEach, hrun, Option.map_some]

theorem listForEachPrev_ring {fuel : Nat} (hfuel : es.length < fuel) :
    listForEachPrev fuel h head = some es.reverse := by
  obtain ⟨s, hrun, -⟩ : ∃ s, forEachEntry (fun h a => (h a).map (·.prev)) head
      (fun _ h => some h) fuel h = some (es.reverse, s) ∧ s = h := by
    refine forEachEntry_run (J := fun _ s => s = h) ?_ ?_ rfl (by rwa [List.length_reverse])
    · rintro _ rfl
      exact hr.prev_head
    · rintro done x rest _ hes rfl
      have hx := hr.ne_head (x := x) (by rw [← List.mem_reverse, hes]; simp)
      exact ⟨hx, _, rfl, hr.prev_entry hes, rfl⟩
  rw [listForEachPrev, hrun, Option.map_some]

theorem listIsLast_ring {e : Addr} (he : e ∈ es) :
    listIsLast h e head = some (es.getLast? == some e) := by
  have hne : ∀ x ∈ es, x ≠ head := fun x hx => hr.ne_head hx
  obtain ⟨xs, ys, rfl⟩ := List.append_of_mem he
  have hnodup := (List.nodup_cons.1 hr.nodup).2
  rw [listIsLast, hr.entry, Option.map_some]
  rcases List.eq_nil_or_concat' ys with rfl | ⟨l, z, rfl⟩
  · simp
  · have hze : z ≠ e := by
      rintro rfl
      simp [List.nodup_append] at hnodup
    have hhead : (l ++ [z]).headD head ≠ head := by
      refine hne _ ?_
      cases l <;> simp
    have hlast : (xs ++ e :: (l ++ [z])).getLast? = some z := by
      rw [← List.cons_append, ← List.append_assoc, List.getLast?_concat]
    have hne' : (some z : Option Addr) ≠ some e := by simpa using hze
    rw [hlast, beq_false_of_ne hhead, beq_false_of_ne hne']

end

/-- **The operations of `list.h` do what they are for.** From a memory that holds some lists, any
sequence of legal calls runs within the memory in use and leaves it holding the lists that the calls
are for: there the loops, in both directions, and the tests see them. -/
theorem listOps_run {h : Links Addr} {ls : HeadLists Addr} {ops : List ListOp} (hholds : Holds h ls)
    (hlegal : LegalRun (inUse h) ls ops) :
    ∃ h', ListOp.execAll h ops = some h' ∧ inUse h' = inUse h ∧
      Holds h' (ListOp.applyAll ls ops) ∧
      ∀ head es, ListOp.applyAll ls ops head = some es →
        (∀ fuel > es.length, listForEach fuel h' head = some es ∧
          listForEachPrev fuel h' head = some es.reverse) ∧
        listEmpty h' head = some (es == []) ∧
        listEmptyCareful h' head = some (es == []) ∧
        listIsSingular h' head = some (es.length == 1) ∧
        ∀ e ∈ es, listIsLast h' e head = some (es.getLast? == some e) := by
  obtain ⟨p, hp⟩ := exists_heap h
  change h = heap (inUse h) p at hp
  generalize inUse h = used at hp hlegal ⊢
  subst hp
  obtain ⟨q, hrun, hq⟩ := execAll_drawn (holds_heap.1 hholds) hlegal
  have hholds' := holds_heap.2 hq
  refine ⟨_, hrun, ?_, hholds', fun head es hes => ⟨fun fuel hfuel => ?_, ?_, ?_, ?_, ?_⟩⟩
  · funext a
    rw [inUse, heap]
    cases used a <;> rfl
  · exact ⟨listForEach_ring (hholds'.ring hes) hfuel, listForEachPrev_ring (hholds'.ring hes) hfuel⟩
  · exact listEmpty_drawn hq hes
  · exact listEmptyCareful_drawn hq hes
  · exact listIsSingular_drawn hq hes
  · exact fun e he => listIsLast_ring (hholds'.ring hes) he

/-- Eight list heads of zeroed structs. -/
def zeroedLinks : Links Addr := fun a => if a < 8 then some ⟨0, 0⟩ else none

def cutAndSplice : List ListOp :=
  [.init 1, .addTail 3 1, .add 4 1, .init 2, .cutPosition 2 1 4, .spliceTailInit 2 1]

theorem NoEntry.forget {ls : HeadLists Addr} {a : Addr} (h : NoEntry ls a) (head : Addr) :
    NoEntry (ls.forget head) a :=
  fun b xs hb => h b xs (HeadLists.forget_eq_some hb).2

theorem NoEntry.set {ls : HeadLists Addr} {a : Addr} (h : NoEntry ls a) (head : Addr)
    (es : List Addr) (ha : a ∉ es) : NoEntry (ls.set head es) a := by
  intro b xs hb
  by_cases hbh : b = head
  · rw [hbh, HeadLists.set_self, Option.some_inj] at hb
    exact hb ▸ ha
  · rw [HeadLists.set_of_ne hbh] at hb
    exact h b xs hb

theorem holds_none (h : Links Addr) : Holds h fun _ => none where
  ring hls := by cases hls
  apart hls := by cases hls

theorem cutAndSplice_legal : LegalRun (inUse zeroedLinks) (fun _ => none) cutAndSplice := by
  have hnone : ∀ a, NoEntry (fun _ => none : HeadLists Addr) a := fun a b xs hb => by cases hb
  have h1 : ∀ a, NoEntry (ListOp.apply (fun _ => none) (.init 1)) a :=
    fun a => (hnone a).set 1 [] List.not_mem_nil
  have h2 : ∀ a, a ≠ 3 → NoEntry (ListOp.applyAll (fun _ => none) [.init 1, .addTail 3 1]) a :=
    fun a ha => ((h1 a).forget 3).set 1 [3] (by simpa using ha)
  have h3 : NoEntry (ListOp.applyAll (fun _ => none) [.init 1, .addTail 3 1, .add 4 1]) 2 :=
    ((h2 2 (by decide)).forget 4).set 1 [4, 3] (by decide)
  exact ⟨⟨rfl, hnone 1⟩, ⟨rfl, h1 3, ⟨_, rfl⟩, by decide⟩,
    ⟨rfl, h2 4 (by decide), ⟨_, rfl⟩, by decide⟩, ⟨rfl, h3⟩,
    ⟨rfl, h3.set 2 [] (by decide), ⟨_, rfl⟩, by decide, by decide⟩,
    ⟨⟨_, rfl⟩, ⟨_, rfl⟩, by decide⟩, trivial⟩

theorem listOps_run_cutAndSplice :
    ∃ h', ListOp.execAll zeroedLinks cutAndSplice = some h' ∧
      listForEach 3 h' 1 = some [3, 4] ∧ listForEachPrev 3 h' 1 = some [4, 3] := by
  obtain ⟨h', hrun, -, -, hlists⟩ := listOps_run
    (holds_none zeroedLinks) cutAndSplice_legal
  exact ⟨h', hrun, (hlists 1 [3, 4] rfl).1 3 (by decide)⟩

end Lprofile.Probe
