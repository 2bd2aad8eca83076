import Mathlib.Algebra.Ring.Nat
import Mathlib.Tactic.Common
import Mathlib.Data.List.Basic

/-!
# Merkle trees

The root of a complete tree over `2 ^ d` leaves, by halves, and the root over any list of leaves: so many of
them are hashed in pairs that a power of two is left. Hashing level by level gives the same root.
-/

namespace MerkleTree

variable {α : Type} (node : α → α → α)

/-- One level up. -/
def pairUp : List α → List α
  | a :: b :: l => node a b :: pairUp l
  | _ => []

/-- The root of the complete tree of depth `d`; `none` when there are not `2 ^ d` leaves. -/
def completeRoot : ℕ → List α → Option α
  | 0, [a] => some a
  | 0, _ => none
  | d + 1, l =>
      (completeRoot d (l.take (2 ^ d))).bind fun a => (completeRoot d (l.drop (2 ^ d))).map (node a)

/-- The leaves of the complete tree: with `k` the largest power of two below their number `n`, the first
`2 * k - n`, and the nodes of the others in pairs. -/
def border (l : List α) : List α :=
  let kept := 2 * 2 ^ Nat.log2 (l.length - 1) - l.length
  l.take kept ++ pairUp node (l.drop kept)

def root (l : List α) : Option α :=
  if l.length ≤ 1 then l.head? else completeRoot node (Nat.log2 (l.length - 1)) (border node l)

theorem log2_pred_spec {n : ℕ} (hn : 2 ≤ n) :
    2 ^ Nat.log2 (n - 1) < n ∧ n ≤ 2 * 2 ^ Nat.log2 (n - 1) := by
  have hne : n - 1 ≠ 0 := by omega
  have hle := Nat.log2_self_le hne
  have hlt := @Nat.lt_log2_self (n - 1)
  rw [Nat.pow_succ] at hlt
  omega

theorem length_pairUp {l : List α} {m : ℕ} (h : l.length = 2 * m) : (pairUp node l).length = m := by
  induction m generalizing l with
  | zero =>
    rw [List.length_eq_zero_iff.mp h]
    rfl
  | succ m ih =>
    obtain _ | ⟨a, _ | ⟨b, l⟩⟩ := l
    · simp at h
    · simp at h
      omega
    · rw [List.length_cons, List.length_cons] at h
      rw [pairUp, List.length_cons, ih (by omega)]

theorem pairUp_append {l l' : List α} {m : ℕ} (h : l.length = 2 * m) :
    pairUp node (l ++ l') = pairUp node l ++ pairUp node l' := by
  induction m generalizing l with
  | zero =>
    rw [List.length_eq_zero_iff.mp h]
    rfl
  | succ m ih =>
    obtain _ | ⟨a, _ | ⟨b, l⟩⟩ := l
    · simp at h
    · simp at h
      omega
    · rw [List.length_cons, List.length_cons] at h
      rw [List.cons_append, List.cons_append, pairUp, pairUp, ih (by omega), List.cons_append]

theorem completeRoot_pairUp {d : ℕ} {l : List α} (h : l.length = 2 ^ (d + 1)) :
    completeRoot node d (pairUp node l) = completeRoot node (d + 1) l := by
  induction d generalizing l with
  | zero =>
    obtain ⟨a, b, rfl⟩ := List.length_eq_two.mp h
    rfl
  | succ d ih =>
    rw [Nat.pow_succ] at h
    have hleft : (l.take (2 ^ (d + 1))).length = 2 ^ (d + 1) := by
      rw [List.length_take]
      omega
    have hright : (l.drop (2 ^ (d + 1))).length = 2 ^ (d + 1) := by
      rw [List.length_drop]
      omega
    have hhalf : (l.take (2 ^ (d + 1))).length = 2 * 2 ^ d := by rw [hleft, Nat.pow_succ, Nat.mul_comm]
    have hsplit : pairUp node l =
        pairUp node (l.take (2 ^ (d + 1))) ++ pairUp node (l.drop (2 ^ (d + 1))) := by
      rw [← pairUp_append node hhalf, List.take_append_drop]
    rw [completeRoot, hsplit, List.take_left' (length_pairUp node hhalf),
      List.drop_left' (length_pairUp node hhalf), ih hleft, ih hright, ← completeRoot]

theorem length_border {l : List α} (h : 2 ≤ l.length) :
    (border node l).length = 2 ^ Nat.log2 (l.length - 1) := by
  obtain ⟨hlt, hle⟩ := log2_pred_spec h
  have hdrop : (l.drop (2 * 2 ^ Nat.log2 (l.length - 1) - l.length)).length =
      2 * (l.length - 2 ^ Nat.log2 (l.length - 1)) := by
    rw [List.length_drop]
    omega
  unfold border
  dsimp only
  rw [List.length_append, List.length_take, length_pairUp node hdrop]
  omega

end MerkleTree
