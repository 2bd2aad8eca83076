import Boolberry.Lib.FiniteMap
import Mathlib.Data.BitVec
import Mathlib.Order.Lattice.Nat

/-!
# Xor patches

A patch is a finite map from positions to words; applying it xors each word into
the array cell at its position. Patches are collected from a list of words by an
index function, so several lists collected into one map act as the xor of their
separate actions, and applying a patch twice does nothing.
-/

namespace XorPatch
open KeyValue

variable {w : ℕ}

/-- The word a patch xors in at position `i`, `0` where it has none. -/
def val (p : Map ℕ (BitVec w)) (i : ℕ) : BitVec w := (p.get i).getD 0

/-- `p[i] ^= v`, the entry created on first use. -/
def xorAt (p : Map ℕ (BitVec w)) (i : ℕ) (v : BitVec w) : Map ℕ (BitVec w) :=
  p.set i (val p i ^^^ v)

/-- Xor every word of `l` in at its own index. -/
def collect (idx : BitVec w → ℕ) (p : Map ℕ (BitVec w)) (l : List (BitVec w)) :
    Map ℕ (BitVec w) :=
  l.foldl (fun p v => xorAt p (idx v) v) p

/-- The positions of a patch in increasing order. -/
def positions (p : Map ℕ (BitVec w)) : List ℕ :=
  (List.range (p.keys.sup id + 1)).filter (· ∈ p.keys)

/-- Xor the entries of `q` below `base` into `p`. -/
def mergeBelow (base : ℕ) (p q : Map ℕ (BitVec w)) : Map ℕ (BitVec w) :=
  (positions q).foldl (fun p i => if i < base then xorAt p i (val q i) else p) p

def apply (p : Map ℕ (BitVec w)) (a : List (BitVec w)) : List (BitVec w) :=
  a.mapIdx fun i v => match p.get i with
    | none => v
    | some h => v ^^^ h

/-- The xor of the words of `l` whose index is `i`. -/
def total (idx : BitVec w → ℕ) (l : List (BitVec w)) (i : ℕ) : BitVec w :=
  match l with
  | [] => 0
  | v :: l => (if idx v = i then v else 0) ^^^ total idx l i

@[simp] theorem val_empty (i : ℕ) : val (∅ : Map ℕ (BitVec w)) i = 0 := by simp [val]

theorem val_xorAt (p : Map ℕ (BitVec w)) (i j : ℕ) (v : BitVec w) :
    val (xorAt p i v) j = val p j ^^^ (if i = j then v else 0) := by
  unfold xorAt
  by_cases h : i = j
  · subst h
    simp [val]
  · simp [val, Map.get_set_of_ne p _ (Ne.symm h), h]

theorem val_collect (idx : BitVec w → ℕ) (p : Map ℕ (BitVec w)) (l : List (BitVec w)) (i : ℕ) :
    val (collect idx p l) i = val p i ^^^ total idx l i := by
  induction l generalizing p with
  | nil => simp [collect, total]
  | cons v l ih =>
    have h := ih (xorAt p (idx v) v)
    rw [val_xorAt] at h
    simpa only [collect, List.foldl_cons, total, BitVec.xor_assoc] using h

theorem total_eq_zero {idx : BitVec w → ℕ} {l : List (BitVec w)} {i : ℕ}
    (h : ∀ v ∈ l, idx v ≠ i) : total idx l i = 0 := by
  induction l with
  | nil => rfl
  | cons v l ih =>
    have hv : idx v ≠ i := h v (by simp)
    have hl : total idx l i = 0 := ih fun u hu => h u (by simp [hu])
    simp [total, hv, hl]

theorem mem_positions {p : Map ℕ (BitVec w)} {i : ℕ} : i ∈ positions p ↔ i ∈ p.keys := by
  simp only [positions, List.mem_filter, List.mem_range, decide_eq_true_eq]
  refine ⟨fun h => h.2, fun h => ⟨?_, h⟩⟩
  have : i ≤ p.keys.sup id := Finset.le_sup (f := id) h
  omega

theorem val_of_notMem_positions {p : Map ℕ (BitVec w)} {i : ℕ} (h : i ∉ positions p) :
    val p i = 0 := by
  rw [mem_positions, Map.mem_keys] at h
  unfold val
  cases hp : p.get i with
  | none => rfl
  | some v => exact absurd ⟨v, hp⟩ h

theorem val_foldl_xorAt (base : ℕ) (q : Map ℕ (BitVec w)) (l : List ℕ) (hl : l.Nodup)
    (p : Map ℕ (BitVec w)) (i : ℕ) :
    val (l.foldl (fun p i => if i < base then xorAt p i (val q i) else p) p) i =
      val p i ^^^ (if i ∈ l ∧ i < base then val q i else 0) := by
  induction l generalizing p with
  | nil => simp
  | cons j l ih =>
    obtain ⟨hj, hl⟩ := List.nodup_cons.mp hl
    rw [List.foldl_cons, ih hl]
    by_cases hij : i = j
    · subst hij
      by_cases hb : i < base <;> simp [hj, hb, val_xorAt]
    · by_cases hb : j < base <;> simp [hij, hb, val_xorAt, Ne.symm hij]

theorem val_mergeBelow (base : ℕ) (p q : Map ℕ (BitVec w)) (i : ℕ) :
    val (mergeBelow base p q) i = val p i ^^^ (if i < base then val q i else 0) := by
  have hnd : (positions q).Nodup := List.nodup_range.filter _
  rw [mergeBelow, val_foldl_xorAt base q _ hnd]
  by_cases hq : i ∈ positions q
  · simp [hq]
  · simp [hq, val_of_notMem_positions hq]

theorem apply_eq_mapIdx (p : Map ℕ (BitVec w)) (a : List (BitVec w)) :
    apply p a = a.mapIdx fun i v => v ^^^ val p i := by
  unfold apply val
  congr 1
  funext i v
  cases p.get i <;> simp

@[simp] theorem apply_length (p : Map ℕ (BitVec w)) (a : List (BitVec w)) :
    (apply p a).length = a.length := by
  simp [apply]

theorem getElem?_apply (p : Map ℕ (BitVec w)) (a : List (BitVec w)) (i : ℕ) :
    (apply p a)[i]? = a[i]?.map (· ^^^ val p i) := by
  rw [apply_eq_mapIdx, List.getElem?_mapIdx]

theorem apply_apply (p : Map ℕ (BitVec w)) (a : List (BitVec w)) : apply p (apply p a) = a := by
  refine List.ext_getElem? fun i => ?_
  rw [getElem?_apply, getElem?_apply]
  cases a[i]? with
  | none => rfl
  | some v => simp only [Option.map_some, BitVec.xor_assoc, BitVec.xor_self, BitVec.xor_zero]

/-- A patch whose positions all lie in `a` leaves what is appended to `a` alone. -/
theorem apply_append {p : Map ℕ (BitVec w)} (a b : List (BitVec w))
    (h : ∀ i, a.length ≤ i → val p i = 0) : apply p (a ++ b) = apply p a ++ b := by
  rw [apply_eq_mapIdx, apply_eq_mapIdx, List.mapIdx_append]
  congr 1
  have : (fun (i : ℕ) (v : BitVec w) => v ^^^ val p (i + a.length)) = fun _ v => v := by
    funext i v
    rw [h _ (by omega)]
    simp
  rw [this]
  exact List.ext_getElem (by simp) (by simp)

end XorPatch
