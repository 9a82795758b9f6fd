import Mathlib.Data.List.Basic
import Mathlib.Data.List.Nodup

/-!
# Rings of list heads

An intrusive list is a ring of `list_head`s in memory, the head of the list among
them. `Links` maps the addresses in use to their two pointers; an operation on an
address that is not in use is `none`.

`Ring h head es` says that from `head` the forward pointers lead through `es` and
back, and the backward pointers the other way. `listAddTail` and `listDelInit` keep
it (`Ring.addTail`, `Ring.delInit`), and leave the rest of the memory alone.

`forEachEntry` and `forEachEntrySafe` are the loops over such a ring, with a body that
may change the memory under them; the second reads the pointer of an entry before the
body runs. `forEachEntry_run` and `forEachEntrySafe_run` are their rules: an invariant
of the entries still to come carries over, and the loop visits each of them once and
ends.
-/

namespace Lprofile.Lib

/-- `struct list_head`. -/
structure ListHead (α : Type) where
  next : α
  prev : α
  deriving DecidableEq

/-- The list heads in memory. -/
abbrev Links (α : Type) := α → Option (ListHead α)

variable {α : Type}

/-! ## Operations -/

section

variable [DecidableEq α]

def setNext (h : Links α) (a v : α) : Option (Links α) :=
  (h a).map fun l => Function.update h a (some { l with next := v })

def setPrev (h : Links α) (a v : α) : Option (Links α) :=
  (h a).map fun l => Function.update h a (some { l with prev := v })

def initListHead (h : Links α) (list : α) : Option (Links α) :=
  (setNext h list list).bind (setPrev · list list)

/-- `__list_add`. -/
def listAdd (h : Links α) (new prev next : α) : Option (Links α) := do
  let h ← setPrev h next new
  let h ← setNext h new next
  let h ← setPrev h new prev
  setNext h prev new

def listAddTail (h : Links α) (new head : α) : Option (Links α) := do
  let l ← h head
  listAdd h new l.prev head

/-- `__list_del`. -/
def listDel (h : Links α) (prev next : α) : Option (Links α) := do
  let h ← setPrev h next prev
  setNext h prev next

/-- `__list_del_entry`. -/
def listDelEntry (h : Links α) (entry : α) : Option (Links α) := do
  let l ← h entry
  listDel h l.prev l.next

def listDelInit (h : Links α) (entry : α) : Option (Links α) := do
  let h ← listDelEntry h entry
  initListHead h entry

end

/-! ## Rings -/

/-- The entries between `p` and `n`, linked both ways. -/
def Seg (h : Links α) : α → List α → α → Prop
  | _, [], _ => True
  | p, x :: xs, n => h x = some ⟨xs.headD n, p⟩ ∧ Seg h x xs n

structure Ring (h : Links α) (head : α) (es : List α) : Prop where
  nodup : (head :: es).Nodup
  ends : h head = some ⟨es.headD head, es.getLastD head⟩
  seg : Seg h head es head

theorem Seg.congr {h h' : Links α} {p n : α} {es : List α} (hs : Seg h p es n)
    (heq : ∀ a ∈ es, h' a = h a) : Seg h' p es n := by
  induction es generalizing p with
  | nil => trivial
  | cons x xs ih =>
    exact ⟨(heq x List.mem_cons_self).trans hs.1,
      ih hs.2 fun a ha => heq a (List.mem_cons_of_mem _ ha)⟩

theorem headD_append (xs ys : List α) (d : α) : (xs ++ ys).headD d = xs.headD (ys.headD d) := by
  cases xs <;> rfl

theorem seg_append {h : Links α} {p n : α} {xs ys : List α} :
    Seg h p (xs ++ ys) n ↔ Seg h p xs (ys.headD n) ∧ Seg h (xs.getLastD p) ys n := by
  induction xs generalizing p with
  | nil => simp [Seg]
  | cons x xs ih =>
    simp only [List.cons_append, Seg, headD_append, ih, List.getLastD_cons, and_assoc]

theorem Ring.congr {h h' : Links α} {head : α} {es : List α} (hr : Ring h head es)
    (heq : ∀ a ∈ head :: es, h' a = h a) : Ring h' head es :=
  ⟨hr.nodup, (heq head List.mem_cons_self).trans hr.ends,
    hr.seg.congr fun a ha => heq a (List.mem_cons_of_mem _ ha)⟩

/-- The pointers of an entry in the middle. -/
theorem Ring.entry {h : Links α} {head x : α} {pre post : List α}
    (hr : Ring h head (pre ++ x :: post)) :
    h x = some ⟨post.headD head, pre.getLastD head⟩ :=
  (seg_append.1 hr.seg).2.1

theorem Ring.ne_head {h : Links α} {head x : α} {es : List α} (hr : Ring h head es) (hx : x ∈ es) :
    x ≠ head := by
  rintro rfl
  exact (List.nodup_cons.1 hr.nodup).1 hx

theorem reverse_headD (es : List α) (d : α) : es.reverse.headD d = es.getLastD d := by
  rw [List.headD_eq_head?_getD, List.head?_reverse, List.getLastD_eq_getLast?]

theorem Ring.next_head {h : Links α} {head : α} {es : List α} (hr : Ring h head es) :
    (h head).map (·.next) = some (es.headD head) := by
  rw [hr.ends]
  rfl

/-- The pointer of the first entry, or of the head of an empty ring. -/
theorem Ring.next_first {h : Links α} {head : α} {es : List α} (hr : Ring h head es) :
    ∃ n, (h (es.headD head)).map (·.next) = some n ∧ (es ≠ [] → n = es.tail.headD head) := by
  cases es with
  | nil => exact ⟨_, hr.next_head, fun hne => absurd rfl hne⟩
  | cons x xs =>
    refine ⟨xs.headD head, ?_, fun _ => rfl⟩
    rw [List.headD_cons, hr.seg.1]
    rfl

/-- Backwards the first entry is the last one. -/
theorem Ring.prev_head {h : Links α} {head : α} {es : List α} (hr : Ring h head es) :
    (h head).map (·.prev) = some (es.reverse.headD head) := by
  rw [hr.ends, reverse_headD]
  rfl

theorem Ring.prev_entry {h : Links α} {head x : α} {es done rest : List α} (hr : Ring h head es)
    (hes : es.reverse = done ++ x :: rest) : (h x).map (·.prev) = some (rest.headD head) := by
  have hsplit : es = rest.reverse ++ x :: done.reverse := by
    rw [← List.reverse_reverse es, hes]
    simp
  rw [hsplit] at hr
  rw [hr.entry, ← reverse_headD, List.reverse_reverse]
  rfl

theorem Ring.inUse {h : Links α} {head a : α} {es : List α} (hr : Ring h head es)
    (ha : a ∈ head :: es) : h a ≠ none := by
  rcases List.mem_cons.1 ha with rfl | ha
  · simp [hr.ends]
  · obtain ⟨pre, post, rfl⟩ := List.append_of_mem ha
    simp [hr.entry]

/-! ## The operations keep the ring -/

section

variable [DecidableEq α]

theorem setNext_eq {h : Links α} {a : α} {l : ListHead α} (hl : h a = some l) (v : α) :
    setNext h a v = some (Function.update h a (some ⟨v, l.prev⟩)) := by
  rw [setNext, hl]
  rfl

theorem setPrev_eq {h : Links α} {a : α} {l : ListHead α} (hl : h a = some l) (v : α) :
    setPrev h a v = some (Function.update h a (some ⟨l.next, v⟩)) := by
  rw [setPrev, hl]
  rfl

theorem initListHead_eq {h : Links α} {a : α} {l : ListHead α} (hl : h a = some l) :
    initListHead h a = some (Function.update h a (some ⟨a, a⟩)) := by
  rw [initListHead, setNext_eq hl, Option.bind_some, setPrev_eq (Function.update_self ..),
    Function.update_idem]

theorem ring_init (h : Links α) (head : α) :
    Ring (Function.update h head (some ⟨head, head⟩)) head [] :=
  ⟨List.nodup_singleton _, Function.update_self .., trivial⟩

/-- Between two different entries. -/
theorem listAdd_between {h : Links α} {new prev next : α} {l lp ln : ListHead α}
    (hl : h new = some l) (hp : h prev = some lp) (hn : h next = some ln) (hne : prev ≠ next)
    (hnp : new ≠ prev) (hnn : new ≠ next) :
    listAdd h new prev next = some (Function.update (Function.update (Function.update h
      next (some ⟨ln.next, new⟩)) new (some ⟨next, prev⟩)) prev (some ⟨new, lp.prev⟩)) := by
  simp only [listAdd, setPrev_eq hn, Option.bind_eq_bind, Option.bind_some]
  rw [setNext_eq (l := l) (by simpa [hnn] using hl), Option.bind_some,
    setPrev_eq (Function.update_self ..), Option.bind_some, Function.update_idem,
    setNext_eq (l := lp) (by simpa [hnp.symm, hne] using hp)]

/-- Into an empty ring. -/
theorem listAdd_alone {h : Links α} {new head : α} {l lh : ListHead α} (hl : h new = some l)
    (hh : h head = some lh) (hne : new ≠ head) :
    listAdd h new head head = some (Function.update (Function.update h
      new (some ⟨head, head⟩)) head (some ⟨new, new⟩)) := by
  simp only [listAdd, setPrev_eq hh, Option.bind_eq_bind, Option.bind_some]
  rw [setNext_eq (l := l) (by simpa [hne] using hl), Option.bind_some,
    setPrev_eq (Function.update_self ..), Option.bind_some, Function.update_idem,
    setNext_eq (l := ⟨lh.next, new⟩) (by simp [hne.symm])]
  congr 1
  rw [Function.update_comm hne.symm, Function.update_idem]

/-- A new last entry. -/
theorem Ring.addTail {h : Links α} {head new : α} {es : List α} (hr : Ring h head es)
    (hnew : new ∉ head :: es) {l : ListHead α} (hl : h new = some l) :
    ∃ h', listAddTail h new head = some h' ∧ Ring h' head (es ++ [new]) ∧
      ∀ a ∉ new :: head :: es, h' a = h a := by
  have hnodup : (head :: (es ++ [new])).Nodup := by
    have := hr.nodup
    simp only [List.nodup_cons, List.mem_cons, not_or, List.mem_append, List.nodup_append] at *
    grind
  obtain ⟨hne, hout⟩ : new ≠ head ∧ new ∉ es := by simpa using hnew
  have hends := hr.ends
  rcases List.eq_nil_or_concat' es with rfl | ⟨xs, y, rfl⟩
  · refine ⟨_, by rw [listAddTail, hends]; exact listAdd_alone hl hends hne, ⟨hnodup, ?_, ?_⟩, ?_⟩
    · simp
    · simp [Seg, hne]
    · intro a ha
      simp only [List.mem_cons, not_or] at ha
      simp [ha.1, ha.2.1]
  · have hy := hr.entry
    obtain ⟨hhead, hys, hlast⟩ : head ∉ xs ∧ head ≠ y ∧ y ∉ xs := by
      have := hr.nodup
      simp only [List.nodup_cons, List.mem_append, List.mem_singleton, not_or,
        List.nodup_append] at this
      grind
    obtain ⟨hnx, hny⟩ : new ∉ xs ∧ new ≠ y := by simpa using hout
    rw [headD_append, List.getLastD_concat] at hends
    refine ⟨_, by
      rw [listAddTail, hends]
      exact listAdd_between hl hy hends hys.symm hny hne, ⟨hnodup, ?_, ?_⟩, ?_⟩
    · rw [List.getLastD_concat, headD_append, headD_append]
      simp [hne.symm, hys]
    · rw [seg_append, seg_append]
      refine ⟨⟨?_, ?_⟩, ?_⟩
      · refine (seg_append.1 hr.seg).1.congr fun a ha => ?_
        have hay : a ≠ y := by rintro rfl; exact hlast ha
        have han : a ≠ new := by rintro rfl; exact hnx ha
        have hah : a ≠ head := by rintro rfl; exact hhead ha
        simp [hay, han, hah]
      · simp [Seg]
      · simp [Seg, hny]
    · intro a ha
      simp only [List.mem_cons, List.mem_append, List.not_mem_nil, or_false, not_or] at ha
      simp [ha.1, ha.2.1, ha.2.2.2]

/-- The only entry is unlinked. -/
theorem listDelEntry_alone {h : Links α} {head x : α} {l : ListHead α} (hx : h x = some ⟨head, head⟩)
    (hh : h head = some l) :
    listDelEntry h x = some (Function.update h head (some ⟨head, head⟩)) := by
  simp only [listDelEntry, listDel, hx, Option.bind_eq_bind, Option.bind_some, setPrev_eq hh]
  rw [setNext_eq (Function.update_self ..), Function.update_idem]

/-- An entry between two different ones is unlinked. -/
theorem listDelEntry_between {h : Links α} {x prev next : α} {lp ln : ListHead α}
    (hx : h x = some ⟨next, prev⟩) (hp : h prev = some lp) (hn : h next = some ln)
    (hne : prev ≠ next) :
    listDelEntry h x = some (Function.update (Function.update h next (some ⟨ln.next, prev⟩))
      prev (some ⟨next, lp.prev⟩)) := by
  simp only [listDelEntry, listDel, hx, Option.bind_eq_bind, Option.bind_some, setPrev_eq hn]
  exact setNext_eq (by rwa [Function.update_of_ne hne]) next

/-- The first entry goes out. -/
theorem Ring.delInit {h : Links α} {head x : α} {es : List α} (hr : Ring h head (x :: es)) :
    ∃ h', listDelInit h x = some h' ∧ Ring h' head es ∧ ∀ a ∉ head :: x :: es, h' a = h a := by
  obtain ⟨hx, hseg⟩ := hr.seg
  have hends := hr.ends
  rw [List.headD_cons, List.getLastD_cons] at hends
  obtain ⟨hhx, hes⟩ : head ≠ x ∧ (head :: es).Nodup := by
    have := hr.nodup
    simp only [List.nodup_cons, List.mem_cons, not_or] at *
    grind
  cases es with
  | nil =>
    refine ⟨Function.update (Function.update h head (some ⟨head, head⟩)) x (some ⟨x, x⟩), ?_,
      ⟨hes, ?_, trivial⟩, ?_⟩
    · rw [listDelInit, listDelEntry_alone hx hends]
      exact initListHead_eq (l := ⟨head, head⟩) (by simpa [hhx.symm] using hx)
    · simp [hhx]
    · intro a ha
      simp only [List.mem_cons, List.not_mem_nil, or_false, not_or] at ha
      simp [ha.1, ha.2]
  | cons y ys =>
    obtain ⟨hy, hseg⟩ := hseg
    rw [List.getLastD_cons] at hends
    obtain ⟨hhy, hxy, hys⟩ : head ≠ y ∧ x ≠ y ∧ ∀ a ∈ ys, a ≠ head ∧ a ≠ x ∧ a ≠ y := by
      have := hr.nodup
      simp only [List.nodup_cons, List.mem_cons, not_or] at this
      grind
    refine ⟨Function.update (Function.update (Function.update h y (some ⟨ys.headD head, head⟩))
      head (some ⟨y, ys.getLastD y⟩)) x (some ⟨x, x⟩), ?_, ⟨hes, ?_, ?_, ?_⟩, ?_⟩
    · rw [listDelInit, listDelEntry_between hx hends hy hhy]
      exact initListHead_eq (l := ⟨y, head⟩) (by simpa [hhx.symm, hxy] using hx)
    · rw [List.headD_cons, List.getLastD_cons, Function.update_of_ne hhx, Function.update_self]
    · simp [hxy.symm, hhy.symm]
    · refine hseg.congr fun a ha => ?_
      obtain ⟨hah, hax, hay⟩ := hys a ha
      simp [hah, hax, hay]
    · intro a ha
      simp only [List.mem_cons, not_or] at ha
      simp [ha.1, ha.2.1, ha.2.2.1]

end

/-! ## Loops -/

section

variable {σ : Type} [DecidableEq α] (next : σ → α → Option α) (head : α)
  (body : α → σ → Option σ)

/-- The rounds of `list_for_each_entry` from `pos` on: the entries visited, and the state at the
end. `next` reads a pointer; `list_for_each_entry_reverse` is the loop with the other one. `none`:
the memory is not there, or `fuel` rounds are not enough. -/
def forEachFrom : Nat → α → σ → Option (List α × σ)
  | 0, _, _ => none
  | fuel + 1, pos, s =>
    if pos = head then some ([], s)
    else do
      let s ← body pos s
      let pos' ← next s pos
      let r ← forEachFrom fuel pos' s
      some (pos :: r.1, r.2)

def forEachEntry (fuel : Nat) (s : σ) : Option (List α × σ) := do
  let pos ← next s head
  forEachFrom next head body fuel pos s

/-- The rounds of `list_for_each_entry_safe`; `n` is the entry after `pos`, read before the body. -/
def forEachSafeFrom : Nat → α → α → σ → Option (List α × σ)
  | 0, _, _, _ => none
  | fuel + 1, pos, n, s =>
    if pos = head then some ([], s)
    else do
      let s ← body pos s
      let n' ← next s n
      let r ← forEachSafeFrom fuel n n' s
      some (pos :: r.1, r.2)

def forEachEntrySafe (fuel : Nat) (s : σ) : Option (List α × σ) := do
  let pos ← next s head
  let n ← next s pos
  forEachSafeFrom next head body fuel pos n s

end

section

variable {σ : Type} [DecidableEq α] {next : σ → α → Option α} {head : α} {body : α → σ → Option σ}
  {I : List α → σ → Prop}

/-- **The rule of `list_for_each_entry`.** `I xs s`: the entries `xs` are still to come. -/
theorem forEachFrom_run
    (hstep : ∀ x xs s, I (x :: xs) s → x ≠ head ∧ ∃ s', body x s = some s' ∧
      next s' x = some (xs.headD head) ∧ I xs s') :
    ∀ {es : List α} {s : σ} {fuel : Nat}, I es s → es.length < fuel →
      ∃ s', forEachFrom next head body fuel (es.headD head) s = some (es, s') ∧ I [] s'
  | [], s, fuel + 1, hI, _ => ⟨s, by simp [forEachFrom], hI⟩
  | x :: xs, s, fuel + 1, hI, hfuel => by
    obtain ⟨hne, s', hbody, hnext, hI'⟩ := hstep x xs s hI
    obtain ⟨s'', hrest, hend⟩ := forEachFrom_run hstep hI' (Nat.lt_of_succ_lt_succ hfuel)
    refine ⟨s'', ?_, hend⟩
    simp only [forEachFrom, List.headD_cons, hne, ↓reduceIte, Option.bind_eq_bind, hbody, hnext,
      hrest, Option.bind_some]

/-- The rule from the start of the loop; `J done s`: the entries `done` have been visited. -/
theorem forEachEntry_run {es : List α} {J : List α → σ → Prop}
    (hfirst : ∀ s, J [] s → next s head = some (es.headD head))
    (hstep : ∀ done x rest s, es = done ++ x :: rest → J done s → x ≠ head ∧
      ∃ s', body x s = some s' ∧ next s' x = some (rest.headD head) ∧ J (done ++ [x]) s')
    {s : σ} {fuel : Nat} (hJ : J [] s) (hfuel : es.length < fuel) :
    ∃ s', forEachEntry next head body fuel s = some (es, s') ∧ J es s' := by
  have hrounds : ∀ x xs s, (∃ done, es = done ++ x :: xs ∧ J done s) → x ≠ head ∧
      ∃ s', body x s = some s' ∧ next s' x = some (xs.headD head) ∧
        ∃ done, es = done ++ xs ∧ J done s' := by
    rintro x xs s ⟨done, hes, hdone⟩
    obtain ⟨hne, s', hbody, hnext, hJ'⟩ := hstep done x xs s hes hdone
    exact ⟨hne, s', hbody, hnext, done ++ [x], by simp [hes], hJ'⟩
  obtain ⟨s', hrun, done, hes, hend⟩ :=
    forEachFrom_run (I := fun xs s => ∃ done, es = done ++ xs ∧ J done s) hrounds
      ⟨[], rfl, hJ⟩ hfuel
  refine ⟨s', ?_, by rw [hes, List.append_nil]; exact hend⟩
  simp only [forEachEntry, hfirst s hJ, Option.bind_eq_bind, Option.bind_some, hrun]

/-- What every round keeps is kept by the loop; a round is at one of the entries visited. -/
theorem forEachFrom_keeps {P : σ → Prop} :
    ∀ {fuel : Nat} {pos : α} {s : σ} {r : List α × σ},
      forEachFrom next head body fuel pos s = some r →
      (∀ x ∈ r.1, ∀ s s', body x s = some s' → P s → P s') → P s → P r.2
  | 0, _, _, _, hrun, _, _ => by cases hrun
  | fuel + 1, pos, s, r, hrun, hbody, hP => by
    rw [forEachFrom] at hrun
    split at hrun
    · cases hrun
      exact hP
    · simp only [Option.bind_eq_bind, Option.bind_eq_some_iff, Option.some.injEq] at hrun
      obtain ⟨s₁, hround, pos', -, q, hrest, rfl⟩ := hrun
      have hkeeps := hbody pos List.mem_cons_self s s₁ hround hP
      have hend : P q.2 :=
        forEachFrom_keeps hrest (fun x hx => hbody x (List.mem_cons_of_mem _ hx)) hkeeps
      exact hend

theorem forEachEntry_keeps {P : σ → Prop} {fuel : Nat} {s : σ} {r : List α × σ}
    (hrun : forEachEntry next head body fuel s = some r)
    (hbody : ∀ x ∈ r.1, ∀ s s', body x s = some s' → P s → P s') (hP : P s) : P r.2 := by
  simp only [forEachEntry, Option.bind_eq_bind, Option.bind_eq_some_iff] at hrun
  obtain ⟨pos, -, hrun⟩ := hrun
  exact forEachFrom_keeps hrun hbody hP

theorem forEachSafeFrom_run
    (hnext : ∀ xs s, I xs s → ∃ n, next s (xs.headD head) = some n ∧
      (xs ≠ [] → n = xs.tail.headD head))
    (hstep : ∀ x xs s, I (x :: xs) s → x ≠ head ∧ ∃ s', body x s = some s' ∧ I xs s') :
    ∀ {es : List α} {n : α} {s : σ} {fuel : Nat}, I es s → (es ≠ [] → n = es.tail.headD head) →
      es.length < fuel →
      ∃ s', forEachSafeFrom next head body fuel (es.headD head) n s = some (es, s') ∧ I [] s'
  | [], _, s, fuel + 1, hI, _, _ => ⟨s, by simp [forEachSafeFrom], hI⟩
  | x :: xs, n, s, fuel + 1, hI, hn, hfuel => by
    obtain ⟨hne, s', hbody, hI'⟩ := hstep x xs s hI
    obtain ⟨n', hn', htail⟩ := hnext xs s' hI'
    obtain ⟨s'', hrest, hend⟩ :=
      forEachSafeFrom_run hnext hstep hI' htail (Nat.lt_of_succ_lt_succ hfuel)
    obtain rfl : n = xs.headD head := hn (List.cons_ne_nil _ _)
    refine ⟨s'', ?_, hend⟩
    simp only [forEachSafeFrom, List.headD_cons, hne, ↓reduceIte, Option.bind_eq_bind, hbody, hn',
      hrest, Option.bind_some]

/-- **The rule of `list_for_each_entry_safe`.** The body may unlink and free the entry it is at:
what is read afterwards is the pointer of the next one. -/
theorem forEachEntrySafe_run (hfirst : ∀ xs s, I xs s → next s head = some (xs.headD head))
    (hnext : ∀ xs s, I xs s → ∃ n, next s (xs.headD head) = some n ∧
      (xs ≠ [] → n = xs.tail.headD head))
    (hstep : ∀ x xs s, I (x :: xs) s → x ≠ head ∧ ∃ s', body x s = some s' ∧ I xs s')
    {es : List α} {s : σ} {fuel : Nat} (hI : I es s) (hfuel : es.length < fuel) :
    ∃ s', forEachEntrySafe next head body fuel s = some (es, s') ∧ I [] s' := by
  obtain ⟨n, hn, htail⟩ := hnext es s hI
  obtain ⟨s', hrun, hend⟩ := forEachSafeFrom_run hnext hstep hI htail hfuel
  refine ⟨s', ?_, hend⟩
  simp only [forEachEntrySafe, hfirst es s hI, hn, Option.bind_eq_bind, Option.bind_some, hrun]

end

end Lprofile.Lib
