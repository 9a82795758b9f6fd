import Mathlib.Algebra.Group.Int.Defs
import Mathlib.Algebra.Group.Nat.Defs
import Mathlib.Data.List.Basic

/-!
# Little-endian numbers

`leBytes n v` is the low `n` bytes of `v`, least significant first; `leVal`
reads such a list back.
-/

namespace Lprofile.Lib

abbrev Byte := BitVec 8

def leBytes : Nat → Nat → List Byte
  | 0, _ => []
  | n + 1, v => BitVec.ofNat 8 v :: leBytes n (v / 256)

def leVal : List Byte → Nat
  | [] => 0
  | b :: bs => b.toNat + 256 * leVal bs

@[simp] theorem length_leBytes (n v : Nat) : (leBytes n v).length = n := by
  induction n generalizing v with
  | zero => rfl
  | succ n ih => simp [leBytes, ih]

@[simp] theorem take_leBytes {n k : Nat} (h : n ≤ k) (v : Nat) :
    (leBytes n v).take k = leBytes n v := List.take_of_length_le (by rwa [length_leBytes])

@[simp] theorem drop_leBytes {n k : Nat} (h : n ≤ k) (v : Nat) : (leBytes n v).drop k = [] :=
  List.drop_eq_nil_of_le (by rwa [length_leBytes])

theorem leVal_leBytes (n v : Nat) : leVal (leBytes n v) = v % 256 ^ n := by
  induction n generalizing v with
  | zero => simp [leBytes, leVal, Nat.mod_one]
  | succ n ih =>
    have hb : (BitVec.ofNat 8 v).toNat = v % 256 := BitVec.toNat_ofNat v 8
    rw [leBytes, leVal, ih, hb, Nat.pow_succ', Nat.mod_mul]

theorem leVal_append (bs cs : List Byte) :
    leVal (bs ++ cs) = leVal bs + 256 ^ bs.length * leVal cs := by
  induction bs with
  | nil => simp [leVal]
  | cons b bs ih =>
    rw [List.cons_append, leVal, leVal, ih, List.length_cons, Nat.pow_succ', Nat.mul_add,
      Nat.add_assoc, Nat.mul_assoc]

theorem leVal_lt (bs : List Byte) : leVal bs < 256 ^ bs.length := by
  induction bs with
  | nil => decide
  | cons b bs ih =>
    have hb : b.toNat < 256 := b.isLt
    rw [leVal, List.length_cons, Nat.pow_succ']
    omega

/-- A word of `8 * n` bits survives the trip through its bytes. -/
theorem leVal_leBytes_toNat {n w : Nat} (hw : w = 8 * n) (x : BitVec w) :
    BitVec.ofNat w (leVal (leBytes n x.toNat)) = x := by
  subst hw
  have hx := x.isLt
  rw [leVal_leBytes, show (256 : Nat) = 2 ^ 8 from rfl, ← Nat.pow_mul, Nat.mod_eq_of_lt hx,
    BitVec.ofNat_toNat, BitVec.setWidth_eq]

end Lprofile.Lib
