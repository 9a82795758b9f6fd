import Mathlib.Data.Multiset.UnionInter
import Mathlib.Algebra.Order.Group.Multiset
import Mathlib.Data.List.Induction

/-!
# Resource ledgers

A ledger is the history of acquisitions and releases of resources of type `α`,
oldest first. `held` is what is held after it. `NoStray` says that nothing is
released that is not held, `Fresh` that nothing is acquired twice at once.
A ledger with both, after which nothing is held, releases every acquired
resource exactly once: seen from one resource it is a sequence of
acquire-release pairs (`filter_eq_pairs`). `latest` is what a resource was last
acquired for.
-/

namespace Lprofile.Lib

inductive LedgerOp (α : Type) where
  | acquire (a : α)
  | release (a : α)
  deriving DecidableEq, Repr

namespace Ledger

variable {α : Type} [DecidableEq α]

def post (h : Multiset α) : LedgerOp α → Multiset α
  | .acquire a => a ::ₘ h
  | .release a => h.erase a

def held (ops : List (LedgerOp α)) : Multiset α := ops.foldl post 0

/-- A release needs the resource. -/
def RelOk (h : Multiset α) : LedgerOp α → Prop
  | .acquire _ => True
  | .release a => a ∈ h

/-- An acquisition needs a resource that is not held. -/
def AcqOk (h : Multiset α) : LedgerOp α → Prop
  | .acquire a => a ∉ h
  | .release _ => True

def NoStray (ops : List (LedgerOp α)) : Prop :=
  ∀ pre op rest, ops = pre ++ op :: rest → RelOk (held pre) op

def Fresh (ops : List (LedgerOp α)) : Prop :=
  ∀ pre op rest, ops = pre ++ op :: rest → AcqOk (held pre) op

/-- The operation concerns `a`. -/
def on (a : α) : LedgerOp α → Bool
  | .acquire b => b == a
  | .release b => b == a

@[simp] theorem held_nil : held ([] : List (LedgerOp α)) = 0 := rfl

theorem held_snoc (ops : List (LedgerOp α)) (op : LedgerOp α) :
    held (ops ++ [op]) = post (held ops) op := by
  simp [held, List.foldl_append]

theorem post_acquire (h : Multiset α) (a : α) : post h (.acquire a) = h + {a} := by
  rw [post, ← Multiset.singleton_add, add_comm]

theorem post_release (h : Multiset α) (a : α) : post (h + {a}) (.release a) = h := by
  rw [post, add_comm, Multiset.singleton_add, Multiset.erase_cons_head]

theorem forall_split_snoc {β : Type} {xs : List β} {x : β} {Q : List β → β → Prop} :
    (∀ pre y rest, xs ++ [x] = pre ++ y :: rest → Q pre y) ↔
      (∀ pre y rest, xs = pre ++ y :: rest → Q pre y) ∧ Q xs x := by
  constructor
  · intro h
    exact ⟨fun pre y rest e => h pre y (rest ++ [x]) (by simp [e]), h xs x [] rfl⟩
  · rintro ⟨h, hx⟩ pre y rest e
    rcases List.eq_nil_or_concat rest with rfl | ⟨rest', z, rfl⟩
    · obtain ⟨rfl, e2⟩ := List.append_inj' e rfl
      cases e2
      exact hx
    · rw [List.concat_eq_append, ← List.cons_append, ← List.append_assoc] at e
      obtain ⟨rfl, -⟩ := List.append_inj' e rfl
      exact h pre y rest' rfl

theorem noStray_nil : NoStray ([] : List (LedgerOp α)) := by
  intro pre a rest h
  simp at h

theorem noStray_snoc {ops : List (LedgerOp α)} {op : LedgerOp α} :
    NoStray (ops ++ [op]) ↔ NoStray ops ∧ RelOk (held ops) op :=
  forall_split_snoc (Q := fun pre op => RelOk (held pre) op)

theorem fresh_nil : Fresh ([] : List (LedgerOp α)) := by
  intro pre a rest h
  simp at h

theorem fresh_snoc {ops : List (LedgerOp α)} {op : LedgerOp α} :
    Fresh (ops ++ [op]) ↔ Fresh ops ∧ AcqOk (held ops) op :=
  forall_split_snoc (Q := fun pre op => AcqOk (held pre) op)

/-- Nothing is held twice. -/
theorem held_nodup {ops : List (LedgerOp α)} (h : Fresh ops) : (held ops).Nodup := by
  induction ops using List.reverseRecOn with
  | nil => exact Multiset.nodup_zero
  | append_singleton ops op ih =>
    obtain ⟨hf, hop⟩ := fresh_snoc.1 h
    rw [held_snoc]
    cases op with
    | acquire a => exact Multiset.nodup_cons.2 ⟨hop, ih hf⟩
    | release a => exact (ih hf).erase a

/-- Seen from `a`, the ledger is a sequence of pairs, and one more acquisition while `a` is held. -/
theorem filter_eq_pairs_of_held {ops : List (LedgerOp α)} (hn : NoStray ops) (hf : Fresh ops)
    (a : α) : ∃ n, ops.filter (on a) = (List.replicate n [.acquire a, .release a]).flatten ++
      if a ∈ held ops then [.acquire a] else [] := by
  induction ops using List.reverseRecOn with
  | nil => exact ⟨0, by simp⟩
  | append_singleton ops op ih =>
    obtain ⟨hn', hrel⟩ := noStray_snoc.1 hn
    obtain ⟨hf', hacq⟩ := fresh_snoc.1 hf
    obtain ⟨n, ih⟩ := ih hn' hf'
    rw [List.filter_append, ih, held_snoc]
    cases op with
    | acquire b =>
      by_cases hb : b = a
      · subst hb
        have hnot : b ∉ held ops := hacq
        exact ⟨n, by simp [hnot, on, post]⟩
      · have hba : ¬ a = b := fun e => hb e.symm
        exact ⟨n, by simp [on, post, hb, hba]⟩
    | release b =>
      by_cases hb : b = a
      · subst hb
        have hin : b ∈ held ops := hrel
        have hout : b ∉ (held ops).erase b := (held_nodup hf').notMem_erase
        refine ⟨n + 1, ?_⟩
        simp [hin, hout, on, post, List.replicate_succ']
      · have hiff : a ∈ (held ops).erase b ↔ a ∈ held ops :=
          Multiset.mem_erase_of_ne (fun e => hb e.symm)
        exact ⟨n, by simp [on, post, hb, hiff]⟩

/-- **Every acquisition is released exactly once** when nothing is held at the end. -/
theorem filter_eq_pairs {ops : List (LedgerOp α)} (hn : NoStray ops) (hf : Fresh ops)
    (h0 : held ops = 0) (a : α) :
    ∃ n, ops.filter (on a) = (List.replicate n [.acquire a, .release a]).flatten := by
  obtain ⟨n, h⟩ := filter_eq_pairs_of_held hn hf a
  exact ⟨n, by simpa [h0] using h⟩

/-! ## What a resource was handed out for -/

section

variable {β γ : Type} {grant : γ → Option (α × β)} {cs : List γ} {c : γ} {a a' : α} {b : β}

/-- `grant c` is what the call `c` hands out, and for what; `latest` is for what each resource was
handed out last. -/
def latest (grant : γ → Option (α × β)) (cs : List γ) : α → Option β :=
  cs.foldl (fun f c => match grant c with
    | some (a, b) => Function.update f a (some b)
    | none => f) fun _ => none

theorem latest_snoc_none (h : grant c = none) : latest grant (cs ++ [c]) = latest grant cs := by
  simp only [latest, List.foldl_append, List.foldl_cons, List.foldl_nil, h]

theorem latest_snoc_some (h : grant c = some (a, b)) :
    latest grant (cs ++ [c]) = Function.update (latest grant cs) a (some b) := by
  simp only [latest, List.foldl_append, List.foldl_cons, List.foldl_nil, h]

theorem latest_snoc_self (h : grant c = some (a, b)) : latest grant (cs ++ [c]) a = some b := by
  rw [latest_snoc_some h, Function.update_self]

/-- Handing out one resource says nothing about the others. -/
theorem latest_snoc_ne (h : grant c = some (a, b)) (hne : a' ≠ a) :
    latest grant (cs ++ [c]) a' = latest grant cs a' := by
  rw [latest_snoc_some h, Function.update_of_ne hne]

end

end Ledger

end Lprofile.Lib
