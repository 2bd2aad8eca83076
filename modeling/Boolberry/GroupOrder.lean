import Mathlib.NumberTheory.LucasPrimality
import Mathlib.Tactic.ReduceModChar
import Mathlib.Tactic.NormNum.Prime

/-!
# The order of the base point

`L_` of `crypto.cpp`, the order of the base point of `crypto-ops.c`, and that it is
prime. Lucas's test needs the prime factors of `ℓ - 1`, and the large ones among
them are tested in the same way.
-/

namespace Boolberry

/-- `L_`. -/
def groupOrder : ℕ := 2 ^ 252 + 27742317777372353535851937790883648493

/-- Lucas's test, with the prime factors of `p - 1` in a list, each as often as it divides. -/
theorem prime_of_factors {p : ℕ} (a : ZMod p) (factors : List ℕ) (hprod : factors.prod = p - 1)
    (hprime : ∀ q ∈ factors, q.Prime) (hone : a ^ (p - 1) = 1)
    (hne : ∀ q ∈ factors, a ^ ((p - 1) / q) ≠ 1) : p.Prime := by
  apply lucas_primality p a hone
  intro q hq hdvd
  rw [← hprod] at hdvd
  obtain ⟨f, hf, hqf⟩ := (Prime.dvd_prod_iff hq.prime).mp hdvd
  rw [(Nat.prime_dvd_prime_iff_eq hq (hprime f hf)).mp hqf]
  exact hne f hf

theorem prime_292386187 : Nat.Prime 292386187 := by
  apply prime_of_factors (2 : ZMod 292386187) [2, 3, 3, 3, 3, 307, 5879] (by norm_num)
  · simp only [List.forall_mem_cons, List.not_mem_nil, false_imp_iff, implies_true, and_true]
    exact ⟨by norm_num, by norm_num, by norm_num, by norm_num, by norm_num, by norm_num, by norm_num⟩
  · reduce_mod_char
  · simp only [List.forall_mem_cons, List.not_mem_nil, false_imp_iff, implies_true, and_true]
    simp only [Nat.reduceSub, Nat.reduceDiv]
    reduce_mod_char
    decide

theorem prime_213441916511 : Nat.Prime 213441916511 := by
  apply prime_of_factors (13 : ZMod 213441916511) [2, 5, 73, 292386187] (by norm_num)
  · simp only [List.forall_mem_cons, List.not_mem_nil, false_imp_iff, implies_true, and_true]
    exact ⟨by norm_num, by norm_num, by norm_num, prime_292386187⟩
  · reduce_mod_char
  · simp only [List.forall_mem_cons, List.not_mem_nil, false_imp_iff, implies_true, and_true]
    simp only [Nat.reduceSub, Nat.reduceDiv]
    reduce_mod_char
    decide

theorem prime_1257559732178653 : Nat.Prime 1257559732178653 := by
  apply prime_of_factors (2 : ZMod 1257559732178653) [2, 2, 3, 7, 23, 531581, 1224481] (by norm_num)
  · simp only [List.forall_mem_cons, List.not_mem_nil, false_imp_iff, implies_true, and_true]
    exact ⟨by norm_num, by norm_num, by norm_num, by norm_num, by norm_num, by norm_num, by norm_num⟩
  · reduce_mod_char
  · simp only [List.forall_mem_cons, List.not_mem_nil, false_imp_iff, implies_true, and_true]
    simp only [Nat.reduceSub, Nat.reduceDiv]
    reduce_mod_char
    decide

theorem prime_4434155615661930479 : Nat.Prime 4434155615661930479 := by
  apply prime_of_factors (17 : ZMod 4434155615661930479) [2, 41, 43, 1257559732178653] (by norm_num)
  · simp only [List.forall_mem_cons, List.not_mem_nil, false_imp_iff, implies_true, and_true]
    exact ⟨by norm_num, by norm_num, by norm_num, prime_1257559732178653⟩
  · reduce_mod_char
  · simp only [List.forall_mem_cons, List.not_mem_nil, false_imp_iff, implies_true, and_true]
    simp only [Nat.reduceSub, Nat.reduceDiv]
    reduce_mod_char
    decide

theorem prime_172054593956031949258510691 : Nat.Prime 172054593956031949258510691 := by
  apply prime_of_factors (2 : ZMod 172054593956031949258510691) [2, 5, 1361, 2851, 4434155615661930479] (by norm_num)
  · simp only [List.forall_mem_cons, List.not_mem_nil, false_imp_iff, implies_true, and_true]
    exact ⟨by norm_num, by norm_num, by norm_num, by norm_num, prime_4434155615661930479⟩
  · reduce_mod_char
  · simp only [List.forall_mem_cons, List.not_mem_nil, false_imp_iff, implies_true, and_true]
    simp only [Nat.reduceSub, Nat.reduceDiv]
    reduce_mod_char
    decide

theorem prime_19757330305831588566944191468367130476339 : Nat.Prime 19757330305831588566944191468367130476339 := by
  apply prime_of_factors (2 : ZMod 19757330305831588566944191468367130476339) [2, 269, 213441916511, 172054593956031949258510691] (by norm_num)
  · simp only [List.forall_mem_cons, List.not_mem_nil, false_imp_iff, implies_true, and_true]
    exact ⟨by norm_num, by norm_num, prime_213441916511, prime_172054593956031949258510691⟩
  · reduce_mod_char
  · simp only [List.forall_mem_cons, List.not_mem_nil, false_imp_iff, implies_true, and_true]
    simp only [Nat.reduceSub, Nat.reduceDiv]
    reduce_mod_char
    decide

theorem prime_276602624281642239937218680557139826668747 : Nat.Prime 276602624281642239937218680557139826668747 := by
  apply prime_of_factors (2 : ZMod 276602624281642239937218680557139826668747) [2, 7, 19757330305831588566944191468367130476339] (by norm_num)
  · simp only [List.forall_mem_cons, List.not_mem_nil, false_imp_iff, implies_true, and_true]
    exact ⟨by norm_num, by norm_num, prime_19757330305831588566944191468367130476339⟩
  · reduce_mod_char
  · simp only [List.forall_mem_cons, List.not_mem_nil, false_imp_iff, implies_true, and_true]
    simp only [Nat.reduceSub, Nat.reduceDiv]
    reduce_mod_char
    decide

theorem prime_58964693 : Nat.Prime 58964693 := by
  apply prime_of_factors (2 : ZMod 58964693) [2, 2, 14741173] (by norm_num)
  · simp only [List.forall_mem_cons, List.not_mem_nil, false_imp_iff, implies_true, and_true]
    exact ⟨by norm_num, by norm_num, by norm_num⟩
  · reduce_mod_char
  · simp only [List.forall_mem_cons, List.not_mem_nil, false_imp_iff, implies_true, and_true]
    simp only [Nat.reduceSub, Nat.reduceDiv]
    reduce_mod_char
    decide

theorem prime_3044861653679985063343 : Nat.Prime 3044861653679985063343 := by
  apply prime_of_factors (5 : ZMod 3044861653679985063343) [2, 3, 11, 30703, 82163, 132667, 137849] (by norm_num)
  · simp only [List.forall_mem_cons, List.not_mem_nil, false_imp_iff, implies_true, and_true]
    exact ⟨by norm_num, by norm_num, by norm_num, by norm_num, by norm_num, by norm_num, by norm_num⟩
  · reduce_mod_char
  · simp only [List.forall_mem_cons, List.not_mem_nil, false_imp_iff, implies_true, and_true]
    simp only [Nat.reduceSub, Nat.reduceDiv]
    reduce_mod_char
    decide

theorem prime_198211423230930754013084525763697 : Nat.Prime 198211423230930754013084525763697 := by
  apply prime_of_factors (5 : ZMod 198211423230930754013084525763697) [2, 2, 2, 2, 3, 23, 58964693, 3044861653679985063343] (by norm_num)
  · simp only [List.forall_mem_cons, List.not_mem_nil, false_imp_iff, implies_true, and_true]
    exact ⟨by norm_num, by norm_num, by norm_num, by norm_num, by norm_num, by norm_num, prime_58964693, prime_3044861653679985063343⟩
  · reduce_mod_char
  · simp only [List.forall_mem_cons, List.not_mem_nil, false_imp_iff, implies_true, and_true]
    simp only [Nat.reduceSub, Nat.reduceDiv]
    reduce_mod_char
    decide

theorem prime_groupOrder : Nat.Prime groupOrder := by
  unfold groupOrder
  simp only [Nat.reducePow, Nat.reduceAdd]
  apply prime_of_factors (2 : ZMod 7237005577332262213973186563042994240857116359379907606001950938285454250989) [2, 2, 3, 11, 198211423230930754013084525763697, 276602624281642239937218680557139826668747] (by norm_num)
  · simp only [List.forall_mem_cons, List.not_mem_nil, false_imp_iff, implies_true, and_true]
    exact ⟨by norm_num, by norm_num, by norm_num, by norm_num, prime_198211423230930754013084525763697, prime_276602624281642239937218680557139826668747⟩
  · reduce_mod_char
  · simp only [List.forall_mem_cons, List.not_mem_nil, false_imp_iff, implies_true, and_true]
    simp only [Nat.reduceSub, Nat.reduceDiv]
    reduce_mod_char
    decide

end Boolberry
