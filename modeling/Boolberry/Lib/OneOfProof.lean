import Mathlib.Algebra.Field.ZMod
import Mathlib.Algebra.BigOperators.Ring.Finset
import Mathlib.Algebra.Module.Basic
import Mathlib.GroupTheory.OrderOfElement
import Mathlib.Tactic.Abel
import Mathlib.Tactic.Ring

/-!
# One-of-many proofs

In a commutative group a member of a ring is a base `B` with a statement `X`; its secret is
a scalar `x` with `X = x • B`. A proof gives every member a challenge `c` and a response `r`,
which commit to `c • X + r • B`, and it verifies when the challenges sum to the hash of the
commitments modulo `ℓ`. Whoever knows the secret of one member can answer for all of them,
and the proofs that verify are just the ones the holder of a secret can make. Two proofs with
one list of commitments and two hashes give the secret of a member away.
-/

namespace OneOfProof

variable {G : Type*} [AddCommGroup G] {ℓ : ℕ}

/-- `a - b` modulo `ℓ`. -/
def subMod (ℓ a b : ℕ) : ℕ := (((a : ℤ) - b) % ℓ).toNat

theorem subMod_lt (hℓ : 0 < ℓ) (a b : ℕ) : subMod ℓ a b < ℓ := by
  have h := Int.emod_lt_of_pos ((a : ℤ) - b) (by omega : (0 : ℤ) < ℓ)
  unfold subMod
  omega

theorem cast_subMod (hℓ : 0 < ℓ) (a b : ℕ) : (subMod ℓ a b : ZMod ℓ) = a - b := by
  have h0 := Int.emod_nonneg ((a : ℤ) - b) (by omega : (ℓ : ℤ) ≠ 0)
  have hcast : ((subMod ℓ a b : ℕ) : ℤ) = ((a : ℤ) - b) % ℓ := Int.toNat_of_nonneg h0
  calc (subMod ℓ a b : ZMod ℓ) = (((subMod ℓ a b : ℕ) : ℤ) : ZMod ℓ) := by rw [Int.cast_natCast]
    _ = (((a : ℤ) - b : ℤ) : ZMod ℓ) := by rw [hcast, ZMod.intCast_mod]
    _ = a - b := by push_cast; rfl

theorem eq_of_cast_eq {a b : ℕ} (ha : a < ℓ) (hb : b < ℓ) (h : (a : ZMod ℓ) = b) : a = b := by
  rw [ZMod.natCast_eq_natCast_iff'] at h
  rwa [Nat.mod_eq_of_lt ha, Nat.mod_eq_of_lt hb] at h

theorem zsmul_congr {B : G} (hB : ℓ • B = 0) {a b : ℤ} (h : (a : ZMod ℓ) = b) : a • B = b • B := by
  have hdvd : (ℓ : ℤ) ∣ b - a := (ZMod.intCast_eq_intCast_iff_dvd_sub a b ℓ).mp h
  obtain ⟨k, hk⟩ := hdvd
  have hb : b = a + k * ℓ := by rw [mul_comm k, ← hk]; omega
  rw [hb, add_smul, mul_smul, natCast_zsmul, hB, smul_zero, add_zero]

theorem nsmul_congr {B : G} (hB : ℓ • B = 0) {a b : ℕ} (h : (a : ZMod ℓ) = b) : a • B = b • B := by
  rw [← natCast_zsmul, ← natCast_zsmul B]
  apply zsmul_congr hB
  simpa using h

/-- What a challenge `c` and a response `r` commit to. -/
def commitment (X B : G) (c r : ℕ) : G := c • X + r • B

/-- The response of the holder of `x` to the challenge `c` on the commitment `k • B`. -/
def response (ℓ k c x : ℕ) : ℕ := subMod ℓ k (c * x)

theorem commitment_response (hℓ : 0 < ℓ) {B : G} (hB : ℓ • B = 0) (k c x : ℕ) :
    commitment (x • B) B c (response ℓ k c x) = k • B := by
  unfold commitment response
  rw [← mul_smul, ← add_smul]
  apply nsmul_congr hB
  push_cast [cast_subMod hℓ]
  ring

/-- The secret that two answers to one commitment give away. -/
def extract (ℓ c r c' r' : ℕ) : ℕ := (((r' : ZMod ℓ) - r) * ((c : ZMod ℓ) - c')⁻¹).val

theorem extract_spec (hℓ : ℓ.Prime) {X B : G} (hX : ℓ • X = 0) (hB : ℓ • B = 0) {c r c' r' : ℕ}
    (hc : (c : ZMod ℓ) ≠ c') (h : commitment X B c r = commitment X B c' r') :
    X = extract ℓ c r c' r' • B := by
  have : Fact ℓ.Prime := ⟨hℓ⟩
  have hne : (c : ZMod ℓ) - c' ≠ 0 := sub_ne_zero.mpr hc
  -- both answers on one side, the secret on the other
  have hdiff : ((c : ℤ) - c') • X = ((r' : ℤ) - r) • B := by
    simp only [commitment, ← natCast_zsmul] at h
    rw [sub_smul, sub_smul, sub_eq_sub_iff_add_eq_add, add_comm (_ • B)]
    exact h
  let u : ℤ := (((c : ZMod ℓ) - c')⁻¹).val
  have hu : (u : ZMod ℓ) = ((c : ZMod ℓ) - c')⁻¹ := by
    rw [Int.cast_natCast, ZMod.natCast_zmod_val]
  calc X = (1 : ℤ) • X := (one_zsmul X).symm
    _ = (u * ((c : ℤ) - c')) • X := by
        apply zsmul_congr hX
        push_cast [hu]
        rw [inv_mul_cancel₀ hne]
    _ = (u * ((r' : ℤ) - r)) • B := by rw [mul_smul, hdiff, mul_smul]
    _ = ((extract ℓ c r c' r' : ℕ) : ℤ) • B := by
        apply zsmul_congr hB
        unfold extract
        push_cast [hu]
        rw [ZMod.natCast_zmod_val, mul_comm]
    _ = _ := natCast_zsmul _ _

/-- A nonzero element killed by a prime determines its scalars modulo it. -/
theorem cast_eq_of_nsmul_eq (hℓ : ℓ.Prime) {B : G} (hB : ℓ • B = 0) (hne : B ≠ 0) {a b : ℕ}
    (h : a • B = b • B) : (a : ZMod ℓ) = b := by
  have : Fact ℓ.Prime := ⟨hℓ⟩
  rw [← addOrderOf_eq_prime hB hne]
  exact (ZMod.natCast_eq_natCast_iff _ _ _).mpr (nsmul_eq_nsmul_iff_modEq.mp h)

/-- A statement with its base. -/
structure Member (G : Type*) where
  stmt : G
  base : G

def commitments (ms : List (Member G)) (proof : List (ℕ × ℕ)) : List G :=
  List.zipWith (fun m p => commitment m.stmt m.base p.1 p.2) ms proof

/-- The sum of the challenges. -/
def challenges (proof : List (ℕ × ℕ)) : ℕ := (proof.map Prod.fst).sum

/-- The proof answers for every member, and its challenges sum to the hash. -/
structure Verifies (ℓ : ℕ) (hash : List G → ℕ) (ms : List (Member G)) (proof : List (ℕ × ℕ)) :
    Prop where
  length : proof.length = ms.length
  sum : (challenges proof : ZMod ℓ) = hash (commitments ms proof)

/-- The challenge that is left for the prover at place `i`, whose commitment is `k` times its base;
`fakes` holds the answers drawn for the others. -/
def ownChallenge (ℓ : ℕ) (hash : List G → ℕ) (ms : List (Member G)) (i k : ℕ)
    (fakes : List (ℕ × ℕ)) : ℕ :=
  subMod ℓ (hash ((commitments ms fakes).set i (k • (ms[i]?.map Member.base).getD 0)))
    (challenges (fakes.set i (0, 0)))

theorem ownChallenge_eq (hash : List G → ℕ) {ms : List (Member G)} {i : ℕ} (hi : i < ms.length)
    (k : ℕ) (fakes : List (ℕ × ℕ)) : ownChallenge ℓ hash ms i k fakes =
      subMod ℓ (hash ((commitments ms fakes).set i (k • ms[i].base)))
        (challenges (fakes.set i (0, 0))) := by
  unfold ownChallenge
  rw [List.getElem?_eq_getElem hi]
  rfl

/-- The prover at place `i` with secret `x`. -/
def prove (ℓ : ℕ) (hash : List G → ℕ) (ms : List (Member G)) (i x k : ℕ) (fakes : List (ℕ × ℕ)) :
    List (ℕ × ℕ) :=
  fakes.set i (ownChallenge ℓ hash ms i k fakes,
    response ℓ k (ownChallenge ℓ hash ms i k fakes) x)

theorem commitments_set (ms : List (Member G)) (proof : List (ℕ × ℕ)) {i : ℕ} (hi : i < ms.length)
    (p : ℕ × ℕ) : commitments ms (proof.set i p) =
      (commitments ms proof).set i (commitment ms[i].stmt ms[i].base p.1 p.2) := by
  induction ms generalizing proof i with
  | nil => simp at hi
  | cons m ms ih =>
    cases proof with
    | nil => simp [commitments]
    | cons q proof =>
      cases i with
      | zero => rfl
      | succ i =>
        have hi' : i < ms.length := by simpa using hi
        have h := ih proof hi'
        simp only [commitments, List.set_cons_succ, List.zipWith_cons_cons] at h ⊢
        rw [h]
        rfl

theorem commitments_length (ms : List (Member G)) (proof : List (ℕ × ℕ))
    (h : proof.length = ms.length) : (commitments ms proof).length = ms.length := by
  simp [commitments, h]

theorem challenges_set (proof : List (ℕ × ℕ)) {i : ℕ} (hi : i < proof.length) (p : ℕ × ℕ) :
    challenges (proof.set i p) = challenges (proof.set i (0, 0)) + p.1 := by
  induction proof generalizing i with
  | nil => simp at hi
  | cons q proof ih =>
    cases i with
    | zero => simp [challenges, add_comm]
    | succ i =>
      have h := ih (by simpa using hi : i < proof.length)
      simp only [challenges, List.set_cons_succ, List.map_cons, List.sum_cons] at h ⊢
      omega

/-- What is drawn for the prover's own place is not used. -/
theorem prove_set (hash : List G → ℕ) {ms : List (Member G)} {i : ℕ} (hi : i < ms.length) (x k : ℕ)
    (fakes : List (ℕ × ℕ)) (p : ℕ × ℕ) :
    prove ℓ hash ms i x k (fakes.set i p) = prove ℓ hash ms i x k fakes := by
  unfold prove
  rw [ownChallenge_eq hash hi, ownChallenge_eq hash hi, commitments_set ms fakes hi, List.set_set,
    List.set_set, List.set_set]

theorem reduced_prove (hℓ : 0 < ℓ) (hash : List G → ℕ) (ms : List (Member G)) (i x k : ℕ)
    {fakes : List (ℕ × ℕ)} (h : ∀ p ∈ fakes, p.1 < ℓ ∧ p.2 < ℓ) :
    ∀ p ∈ prove ℓ hash ms i x k fakes, p.1 < ℓ ∧ p.2 < ℓ := by
  intro p hp
  rcases List.mem_or_eq_of_mem_set hp with hp | rfl
  · exact h p hp
  · exact ⟨subMod_lt hℓ _ _, subMod_lt hℓ _ _⟩

section Secret

variable {ms : List (Member G)} {i x : ℕ} (hi : i < ms.length) (hstmt : ms[i].stmt = x • ms[i].base)
  (hbase : ℓ • ms[i].base = 0) (hash : List G → ℕ)

include hstmt hbase in
theorem verifies_prove (hℓ : 0 < ℓ) (k : ℕ) {fakes : List (ℕ × ℕ)}
    (hlen : fakes.length = ms.length) : Verifies ℓ hash ms (prove ℓ hash ms i x k fakes) := by
  have hcommit (c : ℕ) : commitments ms (fakes.set i (c, response ℓ k c x)) =
      (commitments ms fakes).set i (k • ms[i].base) := by
    rw [commitments_set ms fakes hi, hstmt, commitment_response hℓ hbase]
  constructor
  · simp [prove, hlen]
  · unfold prove
    rw [hcommit, challenges_set fakes (hlen ▸ hi), ownChallenge_eq hash hi]
    push_cast [cast_subMod hℓ]
    ring

include hstmt hbase in
/-- Every proof that verifies is one the holder of the secret makes: the commitment to answer is
`r + c x`. -/
theorem prove_of_verifies (hℓ : 0 < ℓ) {proof : List (ℕ × ℕ)}
    (hreduced : ∀ p ∈ proof, p.1 < ℓ ∧ p.2 < ℓ) (h : Verifies ℓ hash ms proof) {k : ℕ}
    (hk : (k : ZMod ℓ) = (proof[i]?.getD (0, 0)).2 + (proof[i]?.getD (0, 0)).1 * x) :
    prove ℓ hash ms i x k proof = proof := by
  have hip : i < proof.length := h.length ▸ hi
  obtain ⟨hc, hr⟩ := hreduced proof[i] (List.getElem_mem hip)
  rw [List.getElem?_eq_getElem hip, Option.getD_some] at hk
  -- the commitment at `i` is the one the proof makes there
  have hcommit : commitment ms[i].stmt ms[i].base proof[i].1 proof[i].2 = k • ms[i].base := by
    unfold commitment
    rw [hstmt, ← mul_smul, ← add_smul]
    apply nsmul_congr hbase
    push_cast
    rw [hk, add_comm]
  have hsame : (commitments ms proof).set i (k • ms[i].base) = commitments ms proof := by
    rw [← hcommit, ← commitments_set ms proof hi, List.set_getElem_self]
  have hchallenge : ownChallenge ℓ hash ms i k proof = proof[i].1 := by
    rw [ownChallenge_eq hash hi, hsame]
    apply eq_of_cast_eq (subMod_lt hℓ _ _) hc
    have hsplit := challenges_set proof hip proof[i]
    rw [List.set_getElem_self] at hsplit
    rw [cast_subMod hℓ, ← h.sum, hsplit]
    push_cast
    ring
  have hresponse : response ℓ k proof[i].1 x = proof[i].2 := by
    apply eq_of_cast_eq (subMod_lt hℓ _ _) hr
    rw [cast_subMod hℓ, hk]
    push_cast
    ring
  unfold prove
  rw [hchallenge, hresponse]
  exact List.set_getElem_self hip

end Secret

/-- Two proofs with the same commitments and other hashes part at some member. -/
theorem exists_fork {ms : List (Member G)} {hash hash' : List G → ℕ} {proof proof' : List (ℕ × ℕ)}
    (h : Verifies ℓ hash ms proof) (h' : Verifies ℓ hash' ms proof')
    (hcommit : commitments ms proof = commitments ms proof')
    (hne : (hash (commitments ms proof) : ZMod ℓ) ≠ hash' (commitments ms proof)) :
    ∃ (i : ℕ) (hi : i < ms.length) (hp : i < proof.length) (hp' : i < proof'.length),
      (proof[i].1 : ZMod ℓ) ≠ proof'[i].1 ∧
        commitment ms[i].stmt ms[i].base proof[i].1 proof[i].2 =
          commitment ms[i].stmt ms[i].base proof'[i].1 proof'[i].2 := by
  have hlen : proof.length = proof'.length := h.length.trans h'.length.symm
  by_contra hall
  push Not at hall
  apply hne
  rw [← h.sum, hcommit, ← h'.sum]
  have hcast : proof.map (fun p => (p.1 : ZMod ℓ)) = proof'.map fun p => (p.1 : ZMod ℓ) := by
    apply List.ext_getElem (by simp [hlen])
    intro i hi hi'
    have hp : i < proof.length := by simpa using hi
    have hp' : i < proof'.length := by simpa using hi'
    have hm : i < ms.length := h.length ▸ hp
    by_contra hdiff
    apply hall i hm hp hp' (by simpa using hdiff)
    have hget : (commitments ms proof)[i]? = (commitments ms proof')[i]? := by rw [hcommit]
    simpa [commitments, List.getElem?_zipWith, List.getElem?_eq_getElem, hm, hp, hp'] using hget
  have hsum (l : List (ℕ × ℕ)) : (challenges l : ZMod ℓ) = (l.map fun p => (p.1 : ZMod ℓ)).sum := by
    rw [challenges, Nat.cast_list_sum, List.map_map]
    rfl
  rw [hsum, hsum, hcast]

end OneOfProof
