import Mathlib.Data.List.Cycle
import Lprofile.Lib.Ring

/-!
# Edits of rings

`Ring` speaks of a list from its head. The edits of an intrusive list are local and
do not know the head, so here a ring is a cycle: `Circle p c` says that the pointers
`p` lead around through `c`, from whichever member it is written down
(`Circle.rotate`).

Every edit is a sequence of `Ptrs.link`s: `link a b` makes `b` the next of `a` and
`a` the previous of `b`. The lemmas here say which circles the links of each edit
make; a circle that no link touches stays (`Circle.link`). `heap` is a memory with
these pointers, and `ring_heap_iff` is the connection with `Ring`.
-/

namespace Lprofile.Lib

/-- The pointers of the list heads. -/
structure Ptrs (α : Type) where
  next : α → α
  prev : α → α

variable {α : Type} {p : Ptrs α}

def Linked (p : Ptrs α) (a b : α) : Prop := p.next a = b ∧ p.prev b = a

/-- The pointers lead around. -/
def Circle (p : Ptrs α) (c : List α) : Prop := Cycle.Chain (Linked p) (c : Cycle α)

theorem circle_cons {a : α} {l : List α} :
    Circle p (a :: l) ↔ List.IsChain (Linked p) (a :: (l ++ [a])) := Cycle.chain_coe_cons ..

theorem Circle.rotate {l l' : List α} : Circle p (l ++ l') ↔ Circle p (l' ++ l) := by
  unfold Circle
  rw [Cycle.coe_eq_coe.2 (List.isRotated_append : (l ++ l') ~r (l' ++ l))]

/-- The pointers of the first member. -/
theorem Circle.next_eq {a : α} {l : List α} (h : Circle p (a :: l)) : p.next a = l.headD a := by
  rw [circle_cons] at h
  cases l with
  | nil => exact (List.isChain_cons_cons.1 h).1.1
  | cons x l => exact (List.isChain_cons_cons.1 h).1.1

theorem Circle.prev_eq {a : α} {l : List α} (h : Circle p (a :: l)) : p.prev a = l.getLastD a := by
  rcases List.eq_nil_or_concat' l with rfl | ⟨l, z, rfl⟩
  · rw [circle_cons] at h
    exact (List.isChain_cons_cons.1 h).1.2
  · have hrot : Circle p ((a :: l) ++ [z]) := h
    rw [Circle.rotate, List.singleton_append, circle_cons] at hrot
    rw [List.getLastD_concat]
    exact (List.isChain_cons_cons.1 hrot).1.2

theorem Circle.next_mem {a : α} {c : List α} (h : Circle p c) (ha : a ∈ c) : p.next a ∈ c := by
  obtain ⟨xs, ys, rfl⟩ := List.append_of_mem ha
  rw [Circle.next_eq (Circle.rotate.1 h)]
  cases ys <;> cases xs <;> simp

theorem Circle.prev_mem {a : α} {c : List α} (h : Circle p c) (ha : a ∈ c) : p.prev a ∈ c := by
  obtain ⟨xs, ys, rfl⟩ := List.append_of_mem ha
  have hrot : Circle p (a :: (ys ++ xs)) := Circle.rotate.1 h
  rw [hrot.prev_eq]
  rcases List.eq_nil_or_concat' (ys ++ xs) with hnil | ⟨l, z, hl⟩
  · simp [hnil]
  · have hz : z ∈ ys ++ xs := by simp [hl]
    rw [hl, List.getLastD_concat]
    simp only [List.mem_append, List.mem_cons] at hz ⊢
    tauto

/-- The same circle from the member before. -/
theorem Circle.back {a : α} {l : List α} (h : Circle p (a :: l)) :
    ∃ z l', a :: l = l' ++ [z] ∧ p.prev a = z ∧ p.next z = a ∧ Circle p (z :: l') := by
  obtain ⟨l', z, hl⟩ := (List.eq_nil_or_concat' (a :: l)).resolve_left (by simp)
  have hrot : Circle p (z :: l') := by
    rw [hl, Circle.rotate] at h
    exact h
  have hz : l.getLastD a = z := by
    have hlast : (a :: l).getLastD a = (l' ++ [z]).getLastD a := by rw [hl]
    rwa [List.getLastD_cons, List.getLastD_concat] at hlast
  refine ⟨z, l', hl, h.prev_eq.trans hz, ?_, hrot⟩
  rw [hrot.next_eq]
  cases l' with
  | nil => exact (List.cons.inj hl).1.symm
  | cons b l' => exact (List.cons.inj hl).1.symm

theorem notMem_tail {x : α} {l : List α} (h : l.Nodup) (hx : l.head? = some x) : x ∉ l.tail := by
  cases l with
  | nil => cases hx
  | cons y l =>
    cases hx
    exact (List.nodup_cons.1 h).1

theorem notMem_dropLast {z : α} {l : List α} (h : l.Nodup) (hz : l.getLast? = some z) :
    z ∉ l.dropLast := by
  obtain ⟨ys, rfl⟩ := List.getLast?_eq_some_iff.1 hz
  rw [List.dropLast_concat]
  exact fun hm => (List.nodup_append.1 h).2.2 z hm z (by simp) rfl

/-- A way back to the start closes a path. -/
theorem circle_of_path {a x z : α} {l : List α} (hx : l.head? = some x) (hz : l.getLast? = some z)
    (hl : List.IsChain (Linked p) l) (hax : Linked p a x) (hza : Linked p z a) :
    Circle p (a :: l) := by
  rw [circle_cons, List.isChain_cons]
  refine ⟨fun y hy => ?_, List.isChain_append.2 ⟨hl, .singleton a, fun u hu v hv => ?_⟩⟩
  · rw [List.head?_append, hx] at hy
    cases hy
    exact hax
  · rw [hz] at hu
    cases hu
    cases hv
    exact hza

/-- The members after the first one are a path. -/
theorem Circle.path {a : α} {l : List α} (h : Circle p (a :: l)) :
    List.IsChain (Linked p) (l ++ [a]) := by
  rw [circle_cons] at h
  exact h.tail

/-- Pointers changed elsewhere. -/
theorem Circle.congr {p' : Ptrs α} {c : List α} (h : Circle p c)
    (heq : ∀ a ∈ c, p'.next a = p.next a ∧ p'.prev a = p.prev a) : Circle p' c := by
  cases c with
  | nil => exact Cycle.Chain.nil _
  | cons x l =>
    have hmem : ∀ a ∈ x :: (l ++ [x]), a ∈ x :: l := by simp [or_comm]
    rw [circle_cons] at h ⊢
    refine h.imp_of_mem_imp fun a b ha hb hab => ?_
    exact ⟨(heq a (hmem a ha)).1.trans hab.1, (heq b (hmem b hb)).2.trans hab.2⟩

section

variable [DecidableEq α]

def Ptrs.link (p : Ptrs α) (a b : α) : Ptrs α :=
  ⟨Function.update p.next a b, Function.update p.prev b a⟩

theorem linked_link (p : Ptrs α) (a b : α) : Linked (p.link a b) a b :=
  ⟨Function.update_self .., Function.update_self ..⟩

theorem Linked.link {a b x y : α} (h : Linked p x y) (hx : x ≠ a) (hy : y ≠ b) :
    Linked (p.link a b) x y :=
  ⟨(Function.update_of_ne hx ..).trans h.1, (Function.update_of_ne hy ..).trans h.2⟩

/-- A path stays when the link starts at its end at most, and ends at its start at most. -/
theorem path_link {a b : α} : ∀ {l : List α}, List.IsChain (Linked p) l → a ∉ l.dropLast →
    b ∉ l.tail → List.IsChain (Linked (p.link a b)) l
  | [], _, _, _ => .nil
  | [x], _, _, _ => .singleton x
  | x :: y :: l, h, ha, hb => by
    obtain ⟨hxy, hrest⟩ := List.isChain_cons_cons.1 h
    rw [List.dropLast_cons_cons, List.mem_cons, not_or] at ha
    rw [List.tail_cons, List.mem_cons, not_or] at hb
    refine List.isChain_cons_cons.2 ⟨hxy.link (Ne.symm ha.1) (Ne.symm hb.1), ?_⟩
    exact path_link hrest ha.2 hb.2

/-- A link elsewhere. -/
theorem Circle.link {a b : α} {c : List α} (h : Circle p c) (ha : a ∉ c) (hb : b ∉ c) :
    Circle (p.link a b) c := by
  refine h.congr fun x hx => ⟨Function.update_of_ne ?_ .., Function.update_of_ne ?_ ..⟩
  · exact fun e => ha (e ▸ hx)
  · exact fun e => hb (e ▸ hx)

theorem circle_init (p : Ptrs α) (a : α) : Circle (p.link a a) [a] := by
  rw [circle_cons]
  exact List.isChain_pair.2 (linked_link p a a)

/-- A new member after `a`. -/
theorem Circle.add {a new : α} {l : List α} (h : Circle p (a :: l)) (hnodup : (a :: l).Nodup)
    (hnew : new ∉ a :: l) : Circle ((p.link new (p.next a)).link a new) (a :: new :: l) := by
  obtain ⟨y, t, hyt⟩ : ∃ y t, l ++ [a] = y :: t := List.exists_cons_of_ne_nil (by simp)
  have hcycle : (y :: t).Nodup := by
    rw [← hyt]
    exact List.nodup_append_comm.1 hnodup
  have hmem : ∀ x, x ∈ y :: t ↔ x ∈ a :: l := by
    intro x
    rw [← hyt]
    simp [or_comm]
  have hlast : (y :: t).dropLast = l := by rw [← hyt, List.dropLast_concat]
  rw [circle_cons, hyt] at h
  obtain ⟨⟨hy, -⟩, hrest⟩ := List.isChain_cons_cons.1 h
  rw [circle_cons, List.cons_append, hyt, hy]
  have hnew' : new ∉ y :: t := fun hm => hnew ((hmem new).1 hm)
  obtain ⟨hna, hnl⟩ : new ≠ a ∧ new ∉ l := by simpa using hnew
  have hny : y ≠ new := fun e => hnew' (by simp [e])
  refine List.isChain_cons_cons.2 ⟨linked_link _ a new, List.isChain_cons_cons.2 ⟨?_, ?_⟩⟩
  · exact (linked_link p new y).link hna hny
  · refine path_link (path_link hrest ?_ ?_) ?_ ?_
    · rwa [hlast]
    · exact (List.nodup_cons.1 hcycle).1
    · rw [hlast]
      exact (List.nodup_cons.1 hnodup).1
    · exact fun hm => hnew' (List.mem_cons_of_mem _ hm)

/-- A new member before `a`. -/
theorem Circle.addTail {a new : α} {l : List α} (h : Circle p (a :: l)) (hnodup : (a :: l).Nodup)
    (hnew : new ∉ a :: l) :
    Circle ((p.link new a).link (p.prev a) new) (a :: (l ++ [new])) := by
  obtain ⟨z, l', hl, hprev, hnext, hback⟩ := h.back
  rw [hl] at hnodup hnew
  have hnew' : new ∉ z :: l' := fun hm => hnew (by simpa [or_comm] using hm)
  have hadd := hback.add (List.nodup_append_comm.1 hnodup) hnew'
  rw [hnext] at hadd
  have hrot : Circle ((p.link new a).link z new) (l' ++ [z, new]) :=
    Circle.rotate.1 (show Circle _ ([z, new] ++ l') from hadd)
  rw [hprev, ← List.cons_append, hl, List.append_assoc]
  exact hrot

/-- A member other than the last one goes out. -/
theorem Circle.del {e x : α} {l : List α} (h : Circle p (e :: x :: l))
    (hnodup : (e :: x :: l).Nodup) : Circle (p.link (p.prev e) (p.next e)) (x :: l) := by
  have hpath : List.IsChain (Linked p) (x :: l) := (List.isChain_append.1 h.path).1
  rw [h.next_eq, h.prev_eq, List.headD_cons, List.getLastD_cons]
  obtain ⟨-, hxl⟩ := List.nodup_cons.1 hnodup
  cases l with
  | nil => exact circle_init p x
  | cons y l =>
    have hz : (y :: l).getLast? = some ((y :: l).getLastD x) := by
      rw [List.getLastD_eq_getLast?]
      simp [List.getLast?_cons]
    have hz' : (x :: y :: l).getLast? = some ((y :: l).getLastD x) := by
      rwa [List.getLast?_cons_cons]
    have hkeep := path_link hpath (notMem_dropLast hxl hz') (notMem_tail hxl rfl)
    obtain ⟨hxy, hrest⟩ := List.isChain_cons_cons.1 hkeep
    exact circle_of_path rfl hz hrest hxy (linked_link p _ x)

/-- `new` in the place of `old`. -/
theorem Circle.replace {old x new : α} {l : List α} (h : Circle p (old :: x :: l))
    (hnodup : (old :: x :: l).Nodup) (hnew : new ∉ old :: x :: l) :
    Circle ((p.link new (p.next old)).link (p.prev old) new) (new :: x :: l) := by
  have hpath : List.IsChain (Linked p) (x :: l) := (List.isChain_append.1 h.path).1
  rw [h.next_eq, h.prev_eq, List.headD_cons]
  obtain ⟨-, hxl⟩ := List.nodup_cons.1 hnodup
  have hz : (x :: l).getLast? = some ((x :: l).getLastD old) := by
    rw [List.getLastD_eq_getLast?]
    simp [List.getLast?_cons]
  have hzmem := List.mem_of_getLast? hz
  have hnew' : new ∉ x :: l := fun hm => hnew (List.mem_cons_of_mem _ hm)
  have hnz : new ≠ (x :: l).getLastD old := fun e => hnew' (e ▸ hzmem)
  have hxn : x ≠ new := fun e => hnew' (by simp [e])
  refine circle_of_path rfl hz (path_link (path_link hpath ?_ ?_) ?_ ?_)
    ((linked_link p new x).link hnz hxn) (linked_link _ _ new)
  · exact fun hm => hnew' (List.dropLast_subset _ hm)
  · exact notMem_tail hxl rfl
  · exact notMem_dropLast hxl hz
  · exact fun hm => hnew' (List.mem_cons_of_mem _ hm)

/-- The members of the circle of `b`, without `b`, go between `a` and what comes after it. -/
theorem Circle.splice {a b x : α} {xs ys : List α} (hb : Circle p (b :: x :: xs))
    (ha : Circle p (a :: ys)) (hnodup : ((b :: x :: xs) ++ a :: ys).Nodup) :
    Circle ((p.link a (p.next b)).link (p.prev b) (p.next a)) (a :: (x :: xs ++ ys)) := by
  have hxpath : List.IsChain (Linked p) (x :: xs) := (List.isChain_append.1 hb.path).1
  have hypath := ha.path
  obtain ⟨hbxs, hays, hdisj⟩ := List.nodup_append.1 hnodup
  obtain ⟨-, hxs⟩ := List.nodup_cons.1 hbxs
  have hz : (x :: xs).getLast? = some ((x :: xs).getLastD b) := by
    rw [List.getLastD_eq_getLast?]
    simp [List.getLast?_cons]
  have hy : (ys ++ [a]).head? = some (ys.headD a) := by cases ys <;> rfl
  rw [hb.next_eq, hb.prev_eq, ha.next_eq, List.headD_cons]
  generalize (x :: xs).getLastD b = z at hz
  generalize ys.headD a = y at hy
  have hzmem := List.mem_of_getLast? hz
  have hymem := List.mem_of_mem_head? hy
  have hcycle : (ys ++ [a]).Nodup := List.nodup_append_comm.1 hays
  have hapart : ∀ u ∈ x :: xs, ∀ v ∈ ys ++ [a], u ≠ v := by
    intro u hu v hv
    refine hdisj u (List.mem_cons_of_mem _ hu) v ?_
    simpa [or_comm] using hv
  rw [circle_cons, List.append_assoc, List.isChain_cons]
  refine ⟨fun u hu => ?_, List.isChain_append.2 ⟨?_, ?_, fun u hu v hv => ?_⟩⟩
  · cases hu
    exact (linked_link p a x).link (hapart z hzmem a (by simp)).symm (hapart x (by simp) y hymem)
  · refine path_link (path_link hxpath ?_ (notMem_tail hxs rfl)) (notMem_dropLast hxs hz) ?_
    · exact fun hm => hapart a (List.dropLast_subset _ hm) a (by simp) rfl
    · exact fun hm => hapart y (List.mem_of_mem_tail hm) y hymem rfl
  · refine path_link (path_link hypath ?_ ?_) ?_ (notMem_tail hcycle hy)
    · rw [List.dropLast_concat]
      exact (List.nodup_cons.1 hays).1
    · exact fun hm => hapart x (by simp) x (List.mem_of_mem_tail hm) rfl
    · exact fun hm => hapart z hzmem z (List.dropLast_subset _ hm) rfl
  · rw [hz] at hu
    rw [hy] at hv
    cases hu
    cases hv
    exact linked_link _ z y

/-- They go between `a` and what comes before it. -/
theorem Circle.spliceTail {a b x : α} {xs ys : List α} (hb : Circle p (b :: x :: xs))
    (ha : Circle p (a :: ys)) (hnodup : ((b :: x :: xs) ++ a :: ys).Nodup) :
    Circle ((p.link (p.prev a) (p.next b)).link (p.prev b) a) (a :: (ys ++ x :: xs)) := by
  obtain ⟨z, l', hl, hprev, hnext, hback⟩ := ha.back
  rw [hl] at hnodup
  have hsplice := hb.splice hback
    ((List.Perm.append_left _ List.perm_append_comm).nodup_iff.1 hnodup)
  rw [hnext] at hsplice
  have hrot : Circle ((p.link z (p.next b)).link (p.prev b) a) (l' ++ z :: x :: xs) :=
    Circle.rotate.1 (show Circle _ ((z :: x :: xs) ++ l') from hsplice)
  rw [hprev, ← List.cons_append, hl, List.append_assoc]
  exact hrot

/-- The members after `a`, up to `e`, go to `b`. -/
theorem Circle.cut {a b e : α} {xs ys : List α} (h : Circle p (a :: (xs ++ e :: ys)))
    (hnodup : (a :: (xs ++ e :: ys)).Nodup) (hb : b ∉ a :: (xs ++ e :: ys)) :
    Circle (((p.link b (p.next a)).link e b).link a (p.next e)) (b :: (xs ++ [e])) ∧
      Circle (((p.link b (p.next a)).link e b).link a (p.next e)) (a :: ys) := by
  have hrot : Circle p (e :: (ys ++ a :: xs)) :=
    Circle.rotate.1 (show Circle p ((a :: xs) ++ e :: ys) from h)
  have hpath : List.IsChain (Linked p) ((xs ++ [e]) ++ (ys ++ [a])) := by
    have := h.path
    simpa using this
  obtain ⟨hxpath, hypath, -⟩ := List.isChain_append.1 hpath
  have hx : (xs ++ [e]).head? = some ((xs ++ e :: ys).headD a) := by cases xs <;> rfl
  have hy : (ys ++ [a]).head? = some ((ys ++ a :: xs).headD e) := by cases ys <;> rfl
  rw [h.next_eq, hrot.next_eq]
  generalize (xs ++ e :: ys).headD a = x at hx
  generalize (ys ++ a :: xs).headD e = y at hy
  have hz : (xs ++ [e]).getLast? = some e := List.getLast?_concat
  have hxmem := List.mem_of_mem_head? hx
  have hymem := List.mem_of_mem_head? hy
  have hall : ((xs ++ [e]) ++ (ys ++ [a])).Nodup := by
    have hperm : ((xs ++ [e]) ++ (ys ++ [a])).Perm (a :: (xs ++ e :: ys)) := by
      simpa using (List.perm_append_comm : ((xs ++ e :: ys) ++ [a]).Perm ([a] ++ (xs ++ e :: ys)))
    exact hperm.nodup_iff.2 hnodup
  obtain ⟨hxs, hys, hdisj⟩ := List.nodup_append.1 hall
  have hbx : b ∉ xs ++ [e] := fun hm => hb (by
    simp only [List.mem_append, List.mem_cons, List.not_mem_nil, or_false] at hm ⊢
    tauto)
  have hby : b ∉ ys ++ [a] := fun hm => hb (by
    simp only [List.mem_append, List.mem_cons, List.not_mem_nil, or_false] at hm ⊢
    tauto)
  have hbe : b ≠ e := fun e' => hbx (by simp [e'])
  have hba : b ≠ a := fun e' => hby (by simp [e'])
  have hxb : x ≠ b := fun e' => hbx (e' ▸ hxmem)
  have hyb : y ≠ b := fun e' => hby (e' ▸ hymem)
  have hxy : x ≠ y := hdisj x hxmem y hymem
  have hea : e ≠ a := hdisj e (by simp) a (by simp)
  constructor
  · refine circle_of_path hx hz ?_ (((linked_link p b x).link hbe hxb).link hba hxy)
      ((linked_link _ e b).link hea hyb.symm)
    refine path_link (path_link (path_link hxpath ?_ (notMem_tail hxs hx)) (notMem_dropLast hxs hz)
      ?_) ?_ ?_
    · exact fun hm => hbx (List.dropLast_subset _ hm)
    · exact fun hm => hbx (List.mem_of_mem_tail hm)
    · exact fun hm => hdisj a (List.dropLast_subset _ hm) a (by simp) rfl
    · exact fun hm => hdisj y (List.mem_of_mem_tail hm) y hymem rfl
  · rw [circle_cons, List.isChain_cons]
    refine ⟨fun u hu => ?_, ?_⟩
    · rw [hy] at hu
      cases hu
      exact linked_link _ a y
    · have hlast : (ys ++ [a]).getLast? = some a := List.getLast?_concat
      refine path_link (path_link (path_link hypath ?_ ?_) ?_ ?_) (notMem_dropLast hys hlast)
        (notMem_tail hys hy)
      · exact fun hm => hby (List.dropLast_subset _ hm)
      · exact fun hm => hdisj x hxmem x (List.mem_of_mem_tail hm) rfl
      · exact fun hm => hdisj e (by simp) e (List.dropLast_subset _ hm) rfl
      · exact fun hm => hby (List.mem_of_mem_tail hm)

end

/-! ## Families of lists -/

/-- The entries of each list head. -/
abbrev HeadLists (α : Type) := α → Option (List α)

/-- On no list, neither as the head nor as an entry. -/
def Loose (ls : HeadLists α) (a : α) : Prop := ∀ head es, ls head = some es → a ∉ head :: es

/-- The pointers are those of the lists, and the lists are apart. -/
structure Drawn (used : α → Bool) (p : Ptrs α) (ls : HeadLists α) : Prop where
  circle : ∀ {head es}, ls head = some es → Circle p (head :: es)
  nodup : ∀ {head es}, ls head = some es → (head :: es).Nodup
  inUse : ∀ {head es}, ls head = some es → ∀ a ∈ head :: es, used a = true
  apart : ∀ {head es head' es'}, ls head = some es → ls head' = some es' → head ≠ head' →
    List.Disjoint (head :: es) (head' :: es')

namespace HeadLists

variable [DecidableEq α]

def set (ls : HeadLists α) (head : α) (es : List α) : HeadLists α :=
  Function.update ls head (some es)

def forget (ls : HeadLists α) (head : α) : HeadLists α := Function.update ls head none

@[simp] theorem set_self (ls : HeadLists α) (head : α) (es : List α) :
    ls.set head es head = some es := Function.update_self ..

theorem set_of_ne {ls : HeadLists α} {head a : α} (h : a ≠ head) (es : List α) :
    ls.set head es a = ls a := Function.update_of_ne h ..

@[simp] theorem forget_self (ls : HeadLists α) (head : α) : ls.forget head head = none :=
  Function.update_self ..

theorem forget_of_ne {ls : HeadLists α} {head a : α} (h : a ≠ head) : ls.forget head a = ls a :=
  Function.update_of_ne h ..

@[simp] theorem set_forget (ls : HeadLists α) (head : α) (es : List α) :
    (ls.forget head).set head es = ls.set head es := Function.update_idem ..

theorem forget_eq_some {ls : HeadLists α} {head a : α} {es : List α}
    (h : ls.forget head a = some es) : a ≠ head ∧ ls a = some es := by
  by_cases ha : a = head
  · simp [ha] at h
  · exact ⟨ha, by rwa [forget_of_ne ha] at h⟩

theorem set_of_some {ls : HeadLists α} {head : α} {es : List α} (h : ls head = some es) :
    ls.set head es = ls := Function.update_eq_self_iff.2 h.symm

theorem forget_of_none {ls : HeadLists α} {head : α} (h : ls head = none) : ls.forget head = ls :=
  Function.update_eq_self_iff.2 h.symm

end HeadLists

theorem Drawn.congr {used : α → Bool} {p' : Ptrs α} {ls : HeadLists α}
    (hd : Drawn used p ls)
    (heq : ∀ a, ¬ Loose ls a → p'.next a = p.next a ∧ p'.prev a = p.prev a) :
    Drawn used p' ls where
  circle h := (hd.circle h).congr fun a ha => heq a fun hloose => hloose _ _ h ha
  nodup := hd.nodup
  inUse := hd.inUse
  apart := hd.apart

theorem Loose.ne {ls : HeadLists α} {a head : α} {es : List α} (h : Loose ls a)
    (hls : ls head = some es) : a ≠ head := by
  rintro rfl
  exact h a es hls (by simp)

theorem Loose.none {ls : HeadLists α} {a : α} (h : Loose ls a) : ls a = none := by
  rcases ha : ls a with _ | es
  · rfl
  · exact absurd rfl (h.ne ha)

section

variable [DecidableEq α] {used : α → Bool} {ls : HeadLists α}

theorem Loose.forget {a : α} (h : Loose ls a) (head : α) : Loose (ls.forget head) a :=
  fun b es hb => h b es (HeadLists.forget_eq_some hb).2

theorem Loose.set {a head : α} {es : List α} (h : Loose ls a) (ha : a ∉ head :: es) :
    Loose (ls.set head es) a := by
  intro b xs hb
  by_cases hbh : b = head
  · subst hbh
    rw [HeadLists.set_self, Option.some_inj] at hb
    exact hb ▸ ha
  · rw [HeadLists.set_of_ne hbh] at hb
    exact h b xs hb

theorem Drawn.forget (hd : Drawn used p ls) (a : α) : Drawn used p (ls.forget a) where
  circle h := hd.circle (HeadLists.forget_eq_some h).2
  nodup h := hd.nodup (HeadLists.forget_eq_some h).2
  inUse h := hd.inUse (HeadLists.forget_eq_some h).2
  apart h h' := hd.apart (HeadLists.forget_eq_some h).2 (HeadLists.forget_eq_some h').2

/-- Its members are on no other list. -/
theorem Drawn.loose (hd : Drawn used p ls) {head a : α} {es : List α} (hls : ls head = some es)
    (ha : a ∈ head :: es) : Loose (ls.forget head) a := by
  intro head' es' h' ha'
  obtain ⟨hne, h'⟩ := HeadLists.forget_eq_some h'
  exact hd.apart h' hls hne ha' ha

theorem Drawn.link (hd : Drawn used p ls) {a b : α} (ha : Loose ls a) (hb : Loose ls b) :
    Drawn used (p.link a b) ls where
  circle h := (hd.circle h).link (ha _ _ h) (hb _ _ h)
  nodup := hd.nodup
  inUse := hd.inUse
  apart := hd.apart

/-- One more list, of members that were on no list. -/
theorem Drawn.set (hd : Drawn used p ls) {head : α} {es : List α} (hc : Circle p (head :: es))
    (hnodup : (head :: es).Nodup) (hused : ∀ a ∈ head :: es, used a = true)
    (hloose : ∀ a ∈ head :: es, Loose ls a) : Drawn used p (ls.set head es) := by
  have hcases : ∀ {b xs}, ls.set head es b = some xs →
      (b = head ∧ xs = es) ∨ (b ≠ head ∧ ls b = some xs) := by
    intro b xs hb
    by_cases hbh : b = head
    · subst hbh
      rw [HeadLists.set_self, Option.some_inj] at hb
      exact .inl ⟨rfl, hb.symm⟩
    · rw [HeadLists.set_of_ne hbh] at hb
      exact .inr ⟨hbh, hb⟩
  refine ⟨fun h => ?_, fun h => ?_, fun h => ?_, fun h h' hne a ha ha' => ?_⟩
  · obtain ⟨rfl, rfl⟩ | ⟨-, h⟩ := hcases h
    · exact hc
    · exact hd.circle h
  · obtain ⟨rfl, rfl⟩ | ⟨-, h⟩ := hcases h
    · exact hnodup
    · exact hd.nodup h
  · obtain ⟨rfl, rfl⟩ | ⟨-, h⟩ := hcases h
    · exact hused
    · exact hd.inUse h
  · obtain ⟨rfl, rfl⟩ | ⟨-, hb⟩ := hcases h
    · obtain ⟨rfl, -⟩ | ⟨-, hb'⟩ := hcases h'
      · exact hne rfl
      · exact hloose a ha _ _ hb' ha'
    · obtain ⟨rfl, rfl⟩ | ⟨-, hb'⟩ := hcases h'
      · exact hloose a ha' _ _ hb ha
      · exact hd.apart hb hb' hne ha ha'

end

/-! ## Memory -/

section

variable (used : α → Bool)

/-- The memory with these pointers, in the addresses in use. -/
def heap (p : Ptrs α) : Links α := fun a => if used a then some ⟨p.next a, p.prev a⟩ else none

/-- Every memory is one of these. -/
theorem exists_heap (h : Links α) : ∃ p, h = heap (fun a => (h a).isSome) p := by
  refine ⟨⟨fun a => ((h a).map (·.next)).getD a, fun a => ((h a).map (·.prev)).getD a⟩, ?_⟩
  funext a
  rcases ha : h a with _ | l
  · simp [heap, ha]
  · simp [heap, ha]

variable {used}

theorem heap_of_used {a : α} (ha : used a = true) (p : Ptrs α) :
    heap used p a = some ⟨p.next a, p.prev a⟩ := if_pos ha

/-- A segment is a path from before its first entry to after its last one. -/
theorem seg_heap_iff {n : α} : ∀ {a : α} {xs : List α}, (∀ x ∈ xs, used x = true) →
    (List.IsChain (Linked p) (a :: (xs ++ [n])) ↔
      Seg (heap used p) a xs n ∧ p.next a = xs.headD n ∧ p.prev n = xs.getLastD a)
  | a, [], _ => by simp [Seg, Linked]
  | a, x :: xs, hused => by
    have hx := hused x (by simp)
    rw [List.cons_append, List.isChain_cons_cons,
      seg_heap_iff fun y hy => hused y (List.mem_cons_of_mem _ hy), Seg, heap_of_used hx,
      List.headD_cons, List.getLastD_cons, Option.some_inj, ListHead.mk.injEq]
    unfold Linked
    tauto

/-- A circle in memory, with one of its members as the head. -/
theorem ring_heap_iff {head : α} {es : List α} (hused : ∀ a ∈ head :: es, used a = true) :
    Ring (heap used p) head es ↔ (head :: es).Nodup ∧ Circle p (head :: es) := by
  rw [circle_cons, seg_heap_iff fun x hx => hused x (List.mem_cons_of_mem _ hx)]
  have hhead := heap_of_used (hused head (by simp)) p
  constructor
  · rintro ⟨hnodup, hends, hseg⟩
    rw [hhead, Option.some_inj, ListHead.mk.injEq] at hends
    exact ⟨hnodup, hseg, hends⟩
  · rintro ⟨hnodup, hseg, hnext, hprev⟩
    exact ⟨hnodup, by rw [hhead, hnext, hprev], hseg⟩

variable [DecidableEq α]

theorem setNext_heap {a : α} (ha : used a = true) (p : Ptrs α) (v : α) :
    setNext (heap used p) a v = some (heap used ⟨Function.update p.next a v, p.prev⟩) := by
  rw [setNext_eq (heap_of_used ha p)]
  congr 1
  funext x
  by_cases hx : x = a
  · subst hx
    simp [heap, ha]
  · simp [heap, hx]

theorem setPrev_heap {a : α} (ha : used a = true) (p : Ptrs α) (v : α) :
    setPrev (heap used p) a v = some (heap used ⟨p.next, Function.update p.prev a v⟩) := by
  rw [setPrev_eq (heap_of_used ha p)]
  congr 1
  funext x
  by_cases hx : x = a
  · subst hx
    simp [heap, ha]
  · simp [heap, hx]

end

end Lprofile.Lib
