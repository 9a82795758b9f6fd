import Mathlib.Data.List.Induction
import Mathlib.Data.List.Nodup

/-!
# First occurrences

`insertAll drop acc xs` appends to `acc` the elements of `xs` that are neither
there yet nor in `drop`, each at its first occurrence. It is the order in which
a table numbers the keys it is given.
-/

namespace Lprofile.Lib

variable {α : Type} [DecidableEq α]

def insertNew (drop acc : List α) (x : α) : List α :=
  if x ∈ acc ∨ x ∈ drop then acc else acc ++ [x]

def insertAll (drop acc xs : List α) : List α := xs.foldl (insertNew drop) acc

variable {drop acc xs : List α}

@[simp] theorem insertAll_nil : insertAll drop acc [] = acc := rfl

theorem insertAll_cons (x : α) : insertAll drop acc (x :: xs) =
    insertAll drop (insertNew drop acc x) xs := rfl

theorem insertAll_append (ys : List α) :
    insertAll drop acc (xs ++ ys) = insertAll drop (insertAll drop acc xs) ys :=
  List.foldl_append

theorem insertNew_of_mem {x : α} (h : x ∈ acc) : insertNew drop acc x = acc :=
  if_pos (.inl h)

theorem insertNew_of_drop {x : α} (h : x ∈ drop) : insertNew drop acc x = acc :=
  if_pos (.inr h)

theorem insertNew_of_not_mem {x : α} (h : x ∉ acc) (hd : x ∉ drop) :
    insertNew drop acc x = acc ++ [x] :=
  if_neg (not_or.2 ⟨h, hd⟩)

theorem mem_insertNew {x y : α} : y ∈ insertNew drop acc x ↔ y ∈ acc ∨ (y = x ∧ x ∉ drop) := by
  by_cases hx : x ∈ acc
  · rw [insertNew_of_mem hx]
    exact ⟨.inl, fun h => h.elim id fun e => e.1 ▸ hx⟩
  · by_cases hd : x ∈ drop
    · rw [insertNew_of_drop hd]
      exact ⟨.inl, fun h => h.elim id fun e => absurd hd e.2⟩
    · rw [insertNew_of_not_mem hx hd, List.mem_append, List.mem_singleton]
      exact ⟨Or.imp_right fun e => ⟨e, hd⟩, Or.imp_right And.left⟩

theorem mem_insertAll {y : α} : y ∈ insertAll drop acc xs ↔ y ∈ acc ∨ (y ∈ xs ∧ y ∉ drop) := by
  induction xs generalizing acc with
  | nil => simp
  | cons x xs ih =>
    rw [insertAll_cons, ih, mem_insertNew, List.mem_cons]
    constructor
    · rintro ((h | ⟨rfl, h⟩) | h)
      · exact .inl h
      · exact .inr ⟨.inl rfl, h⟩
      · exact .inr ⟨.inr h.1, h.2⟩
    · rintro (h | ⟨rfl | h, hd⟩)
      · exact .inl (.inl h)
      · exact .inl (.inr ⟨rfl, hd⟩)
      · exact .inr ⟨h, hd⟩

theorem nodup_insertNew (h : acc.Nodup) (x : α) : (insertNew drop acc x).Nodup := by
  by_cases hx : x ∈ acc
  · rwa [insertNew_of_mem hx]
  · by_cases hd : x ∈ drop
    · rwa [insertNew_of_drop hd]
    · rw [insertNew_of_not_mem hx hd]
      refine List.nodup_append.2 ⟨h, List.nodup_singleton x, fun y hy z hz e => hx ?_⟩
      rw [List.mem_singleton] at hz
      rwa [← hz, ← e]

theorem nodup_insertAll (h : acc.Nodup) : (insertAll drop acc xs).Nodup := by
  induction xs generalizing acc with
  | nil => exact h
  | cons x xs ih => exact ih (nodup_insertNew h x)

/-- New elements are appended as they are. -/
theorem insertAll_eq_append (hnd : xs.Nodup) (hacc : ∀ x ∈ xs, x ∉ acc)
    (hdrop : ∀ x ∈ xs, x ∉ drop) : insertAll drop acc xs = acc ++ xs := by
  induction xs generalizing acc with
  | nil => simp
  | cons x xs ih =>
    obtain ⟨hx, hnd⟩ := List.nodup_cons.1 hnd
    rw [insertAll_cons, insertNew_of_not_mem (hacc x List.mem_cons_self)
      (hdrop x List.mem_cons_self), ih hnd]
    · simp
    · intro y hy
      rw [List.mem_append, List.mem_singleton, not_or]
      exact ⟨hacc y (List.mem_cons_of_mem _ hy), fun e => hx (e ▸ hy)⟩
    · exact fun y hy => hdrop y (List.mem_cons_of_mem _ hy)

theorem prefix_insertAll : acc <+: insertAll drop acc xs := by
  induction xs generalizing acc with
  | nil => exact List.prefix_rfl
  | cons x xs ih =>
    refine List.IsPrefix.trans ?_ ih
    unfold insertNew
    split
    · exact List.prefix_rfl
    · exact List.prefix_append _ _

theorem insertNew_filter (x : α) : insertNew drop (acc.filter (· ∉ drop)) x =
    (insertNew [] acc x).filter (· ∉ drop) := by
  by_cases hd : x ∈ drop
  · rw [insertNew_of_drop hd]
    by_cases hx : x ∈ acc
    · rw [insertNew_of_mem hx]
    · rw [insertNew_of_not_mem hx List.not_mem_nil, List.filter_append]
      simp [hd]
  · by_cases hx : x ∈ acc
    · rw [insertNew_of_mem hx, insertNew_of_mem (List.mem_filter.2 ⟨hx, by simpa using hd⟩)]
    · rw [insertNew_of_not_mem hx List.not_mem_nil, List.filter_append,
        insertNew_of_not_mem (fun h => hx (List.mem_filter.1 h).1) hd]
      simp [hd]

/-- Dropping while inserting is filtering afterwards. -/
theorem insertAll_eq_filter : insertAll drop (acc.filter (· ∉ drop)) xs =
    (insertAll [] acc xs).filter (· ∉ drop) := by
  induction xs generalizing acc with
  | nil => rfl
  | cons x xs ih => rw [insertAll_cons, insertAll_cons, insertNew_filter, ih]

theorem insertAll_nil_eq_filter : insertAll drop [] xs = (insertAll [] [] xs).filter (· ∉ drop) := by
  have h : insertAll drop (([] : List α).filter (· ∉ drop)) xs =
    (insertAll [] [] xs).filter (· ∉ drop) := insertAll_eq_filter
  exact h

theorem insertAll_congr {drop' : List α} (h : ∀ x ∈ xs, x ∈ drop ↔ x ∈ drop') :
    insertAll drop acc xs = insertAll drop' acc xs := by
  induction xs generalizing acc with
  | nil => rfl
  | cons x xs ih =>
    have hstep : insertNew drop acc x = insertNew drop' acc x := by
      simp only [insertNew, h x List.mem_cons_self]
    rw [insertAll_cons, insertAll_cons, hstep, ih fun y hy => h y (List.mem_cons_of_mem _ hy)]

/-- Two passes drop what either of them drops. -/
theorem insertAll_insertAll (drop' : List α) :
    insertAll drop [] (insertAll drop' [] xs) = insertAll (drop' ++ drop) [] xs := by
  have hnd : (insertAll drop' [] xs).Nodup := nodup_insertAll List.nodup_nil
  rw [insertAll_nil_eq_filter, insertAll_eq_append hnd (fun _ _ => List.not_mem_nil) fun _ _ =>
    List.not_mem_nil, List.nil_append, insertAll_nil_eq_filter, List.filter_filter,
    @insertAll_nil_eq_filter _ _ (drop' ++ drop)]
  refine List.filter_congr fun x _ => ?_
  simp [List.mem_append, and_comm]

/-- Nothing new, nothing changes. -/
theorem insertAll_eq_self (h : ∀ x ∈ xs, x ∈ acc ∨ x ∈ drop) : insertAll drop acc xs = acc := by
  induction xs with
  | nil => rfl
  | cons x xs ih =>
    have hx : insertNew drop acc x = acc := if_pos (h x List.mem_cons_self)
    rw [insertAll_cons, hx, ih fun y hy => h y (List.mem_cons_of_mem _ hy)]

theorem length_insertAll_le : (insertAll drop acc xs).length ≤ acc.length + xs.length := by
  induction xs generalizing acc with
  | nil => exact Nat.le_refl _
  | cons x xs ih =>
    have hstep : (insertNew drop acc x).length ≤ acc.length + 1 := by
      unfold insertNew
      split
      · omega
      · exact Nat.le_of_eq List.length_append
    rw [insertAll_cons, List.length_cons]
    exact Nat.le_trans ih (by omega)

/-- Repetitions of an element that is there already can be left out. -/
theorem insertAll_flatMap {f : α → List α} {y : α} (hy : y ∈ acc)
    (hf : ∀ x, f x = [x] ∨ f x = [x, y]) :
    insertAll drop acc (xs.flatMap f) = insertAll drop acc xs := by
  induction xs generalizing acc with
  | nil => rfl
  | cons x xs ih =>
    have hy' : y ∈ insertNew drop acc x := mem_insertNew.2 (.inl hy)
    rw [List.flatMap_cons, insertAll_append, insertAll_cons]
    rcases hf x with h | h
    · rw [h, insertAll_cons, insertAll_nil, ih hy']
    · rw [h, insertAll_cons, insertAll_cons, insertNew_of_mem hy', insertAll_nil, ih hy']

theorem insertAll_replicate {n : Nat} (hn : 0 < n) (x : α) :
    insertAll drop acc (List.replicate n x) = insertNew drop acc x := by
  obtain ⟨n, rfl⟩ : ∃ k, n = k + 1 := ⟨n - 1, by omega⟩
  rw [List.replicate_succ, insertAll_cons]
  refine insertAll_eq_self fun y hy => ?_
  rw [List.eq_of_mem_replicate hy, mem_insertNew]
  by_cases hd : x ∈ drop
  · exact .inr hd
  · exact .inl (.inr ⟨rfl, hd⟩)

/-! ## Order -/

/-- `a` occurs in `xs`, and `b` does not occur before it. -/
def Precedes (xs : List α) (a b : α) : Prop :=
  ∃ pre post, xs = pre ++ a :: post ∧ b ∉ pre ∧ b ≠ a

omit [DecidableEq α] in
theorem Precedes.asymm {a b : α} (h : Precedes xs a b) : ¬ Precedes xs b a := by
  rintro ⟨pre', post', h', ha, -⟩
  obtain ⟨pre, post, rfl, hb, hne⟩ := h
  rcases List.append_eq_append_iff.1 h' with ⟨mid, rfl, hmid⟩ | ⟨mid, rfl, hmid⟩
  · cases mid with
    | nil =>
      cases hmid
      exact hne rfl
    | cons x mid =>
      cases hmid
      exact ha (by simp)
  · cases mid with
    | nil =>
      cases hmid
      exact hne rfl
    | cons x mid =>
      cases hmid
      exact hb (by simp)

/-- The elements come in the order of their first occurrences. -/
theorem pairwise_insertAll (drop xs : List α) :
    (insertAll drop [] xs).Pairwise (Precedes xs) := by
  induction xs using List.reverseRecOn with
  | nil => exact List.Pairwise.nil
  | append_singleton xs x ih =>
    have hold : (insertAll drop [] xs).Pairwise (Precedes (xs ++ [x])) := by
      refine ih.imp ?_
      rintro a b ⟨pre, post, rfl, hb⟩
      exact ⟨pre, post ++ [x], by simp, hb⟩
    rw [insertAll_append, insertAll_cons, insertAll_nil]
    by_cases hx : x ∈ insertAll drop [] xs
    · rw [insertNew_of_mem hx]
      exact hold
    · by_cases hd : x ∈ drop
      · rw [insertNew_of_drop hd]
        exact hold
      · rw [insertNew_of_not_mem hx hd]
        refine List.pairwise_append.2 ⟨hold, List.pairwise_singleton _ _, fun a ha b hb => ?_⟩
        rw [List.mem_singleton] at hb
        subst hb
        have hxs : b ∉ xs := fun h => hx (mem_insertAll.2 (.inr ⟨h, hd⟩))
        have haxs := (mem_insertAll.1 ha).resolve_left List.not_mem_nil
        obtain ⟨pre, post, rfl⟩ := List.append_of_mem haxs.1
        exact ⟨pre, post ++ [b], by simp, fun h => hxs (by simp [h]), fun e => hxs (by simp [e])⟩

/-- Two lists have the same first occurrences if they have the same elements, and these occur first
in the same order. -/
theorem insertAll_eq_iff {ys : List α} : insertAll drop [] xs = insertAll drop [] ys ↔
    (∀ a, a ∉ drop → (a ∈ xs ↔ a ∈ ys)) ∧
      ∀ a ∈ xs, ∀ b ∈ xs, a ∉ drop → b ∉ drop → Precedes xs a b → Precedes ys a b := by
  have hmem : ∀ {zs : List α} {a : α}, a ∈ insertAll drop [] zs ↔ a ∈ zs ∧ a ∉ drop := by
    intro zs a
    rw [mem_insertAll, or_iff_right List.not_mem_nil]
  constructor
  · intro h
    refine ⟨fun a hd => ?_, fun a ha b hb hda hdb hlt => ?_⟩
    · have hiff : a ∈ insertAll drop [] xs ↔ a ∈ insertAll drop [] ys := by rw [h]
      rw [hmem, hmem] at hiff
      exact ⟨fun ha => (hiff.1 ⟨ha, hd⟩).1, fun ha => (hiff.2 ⟨ha, hd⟩).1⟩
    · -- `a` and `b` stand in one list, in the order of either occurrence
      have hxs := pairwise_insertAll drop xs
      have hys := pairwise_insertAll drop ys
      rw [← h, List.pairwise_iff_getElem] at hys
      rw [List.pairwise_iff_getElem] at hxs
      obtain ⟨i, hi, rfl⟩ := List.mem_iff_getElem.1 (hmem.2 ⟨ha, hda⟩)
      obtain ⟨j, hj, rfl⟩ := List.mem_iff_getElem.1 (hmem.2 ⟨hb, hdb⟩)
      rcases Nat.lt_trichotomy i j with hij | rfl | hji
      · exact hys i j hi hj hij
      · exact absurd hlt hlt.asymm
      · exact absurd hlt (hxs j i hj hi hji).asymm
  · rintro ⟨hset, horder⟩
    have hperm : (insertAll drop [] xs).Perm (insertAll drop [] ys) := by
      refine (List.perm_ext_iff_of_nodup (nodup_insertAll List.nodup_nil)
        (nodup_insertAll List.nodup_nil)).2 fun a => ?_
      rw [hmem, hmem]
      exact ⟨fun h => ⟨(hset a h.2).1 h.1, h.2⟩, fun h => ⟨(hset a h.2).2 h.1, h.2⟩⟩
    have hxs : (insertAll drop [] xs).Pairwise (Precedes ys) := by
      refine (pairwise_insertAll drop xs).imp_of_mem fun {a b} ha hb hab => ?_
      rw [hmem] at ha hb
      exact horder a ha.1 b hb.1 ha.2 hb.2 hab
    refine hperm.eq_of_pairwise (fun a b _ _ hab hba => ?_) hxs (pairwise_insertAll drop ys)
    exact absurd hba hab.asymm

end Lprofile.Lib
