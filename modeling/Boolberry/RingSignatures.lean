import Mathlib.Data.List.GetD
import Boolberry.Crypto
import Boolberry.ExtraEntries

/-!
# Ring signatures

`check_ring_signature` verifies a one-of-many proof whose members are pairs of points: the
output key over the base point, and the key image over the point hashed from the key. What
it accepts for the key image of a ring member is just what `generate_ring_signature` can
return there. Two signatures that share their commitments give the secret of a member away,
and it fixes the key image, since `validate_key_image` leaves no part outside the subgroup.
-/

namespace Boolberry
open OneOfProof

theorem groupOrder_pos : 0 < groupOrder := by unfold groupOrder; omega
theorem groupOrder_lt : groupOrder < 2 ^ 253 := by unfold groupOrder; omega

theorem toNat_ofNat_wide {w n : ℕ} (hw : 253 ≤ w) (h : n < groupOrder) :
    (BitVec.ofNat w n).toNat = n := by
  rw [BitVec.toNat_ofNat]
  exact Nat.mod_eq_of_lt ((h.trans groupOrder_lt).trans_le (Nat.pow_le_pow_right (by omega) hw))

theorem toNat_ofNat_of_lt {n : ℕ} (h : n < groupOrder) : (BitVec.ofNat 256 n).toNat = n :=
  toNat_ofNat_wide (by omega) h

theorem toNat_ofNat_512 {n : ℕ} (h : n < groupOrder) : (BitVec.ofNat 512 n).toNat = n :=
  toNat_ofNat_wide (by omega) h

theorem toNat_groupOrder : (BitVec.ofNat 256 groupOrder).toNat = groupOrder := by
  have := groupOrder_lt
  rw [BitVec.toNat_ofNat, Nat.mod_eq_of_lt (by omega)]

@[simp] theorem toNat_scReduce (s : BitVec 512) : (scReduce s).toNat = s.toNat % groupOrder :=
  toNat_ofNat_of_lt (Nat.mod_lt _ groupOrder_pos)

@[simp] theorem toNat_scReduce32 (s : EcScalar) : (scReduce32 s).toNat = s.toNat % groupOrder :=
  toNat_ofNat_of_lt (Nat.mod_lt _ groupOrder_pos)

@[simp] theorem toNat_scAdd (a b : EcScalar) :
    (scAdd a b).toNat = (a.toNat + b.toNat) % groupOrder :=
  toNat_ofNat_of_lt (Nat.mod_lt _ groupOrder_pos)

@[simp] theorem toNat_scSub (a b : EcScalar) :
    (scSub a b).toNat = subMod groupOrder a.toNat b.toNat :=
  toNat_ofNat_of_lt (subMod_lt groupOrder_pos _ _)

@[simp] theorem toNat_scMulsub (a b c : EcScalar) :
    (scMulsub a b c).toNat = response groupOrder c.toNat a.toNat b.toNat :=
  toNat_ofNat_of_lt (subMod_lt groupOrder_pos _ _)

@[simp] theorem sigC_mkSig (c r : EcScalar) : sigC (mkSig c r) = c := by
  apply BitVec.eq_of_toNat_eq
  have hc := c.isLt
  have hr := r.isLt
  simp only [sigC, mkSig, BitVec.toNat_ofNat]
  omega

@[simp] theorem sigR_mkSig (c r : EcScalar) : sigR (mkSig c r) = r := by
  apply BitVec.eq_of_toNat_eq
  have hc := c.isLt
  have hr := r.isLt
  simp only [sigR, mkSig, BitVec.toNat_ofNat]
  omega

@[simp] theorem mkSig_sigC_sigR (s : Signature) : mkSig (sigC s) (sigR s) = s := by
  apply BitVec.eq_of_toNat_eq
  have hs := s.isLt
  simp only [sigC, sigR, mkSig, BitVec.toNat_ofNat]
  omega

theorem sigC_nullSig : sigC nullSig = 0 := by
  unfold sigC nullSig
  rw [BitVec.ofNat_eq_ofNat, BitVec.toNat_zero]
  rfl

theorem sigR_nullSig : sigR nullSig = 0 := by
  unfold sigR nullSig
  rw [BitVec.ofNat_eq_ofNat, BitVec.toNat_zero, Nat.zero_div]
  rfl

/-- `sc_sub` gives zero just when the two scalars agree modulo the order. -/
theorem scSub_eq_zero_iff (a b : EcScalar) :
    (scSub a b == 0) = true ↔ (a.toNat : ZMod groupOrder) = b.toNat := by
  rw [beq_iff_eq, ← BitVec.toNat_inj, toNat_scSub]
  constructor
  · intro h
    have hcast := cast_subMod groupOrder_pos a.toNat b.toNat
    rw [h] at hcast
    exact (sub_eq_zero.mp (by rw [← hcast]; simp))
  · intro h
    apply eq_of_cast_eq (subMod_lt groupOrder_pos _ _) (by simpa using groupOrder_pos)
    rw [cast_subMod groupOrder_pos, h]
    simp

/-- The challenges and responses of a list of signatures. -/
def answers (sigs : List Signature) : List (ℕ × ℕ) :=
  sigs.map fun s => ((sigC s).toNat, (sigR s).toNat)

/-- `sc_check` of both members. -/
def Reduced (s : Signature) : Prop := (sigC s).toNat < groupOrder ∧ (sigR s).toNat < groupOrder

theorem not_reduced_iff (s : Signature) :
    (!scCheck (sigC s) || !scCheck (sigR s)) = true ↔ ¬ Reduced s := by
  simp only [scCheck, Reduced, Bool.or_eq_true, Bool.not_eq_true', decide_eq_false_iff_not]
  tauto

namespace CryptoOps

variable {G : Type} [AddCommGroup G] (H : Blob → Hash) (C : CryptoOps G)

theorem smul_base (a : ℕ) : groupOrder • (a • C.base) = 0 := by
  rw [smul_comm, C.base_order, smul_zero]

/-- Points hashed from keys lie in the subgroup of the base point's order. -/
theorem order_hashToEc (key : PublicKey) : groupOrder • C.hashToEc H key = 0 := by
  unfold hashToEc
  rw [← mul_smul, mul_comm]
  exact C.curve_order _

theorem tobytes_injective : Function.Injective C.tobytes := by
  intro P Q h
  have hP := C.frombytes_tobytes P
  rw [h, C.frombytes_tobytes] at hP
  exact (Option.some.inj hP).symm

theorem scalarmult_of_lt {a : EcScalar} (h : a.toNat < groupOrder) (P : G) :
    C.scalarmult a P = a.toNat • P :=
  C.scalarmult_eq a P (by have := groupOrder_lt; omega)

/-- The statements of a ring, when its keys are points. -/
def ringMembers (imageUnp : G) (pubs : List PublicKey) : Option (List (Member (G × G))) :=
  pubs.mapM fun pub => (C.frombytesVartime pub).map fun P =>
    ⟨(P, imageUnp), (C.base, C.hashToEc H pub)⟩

/-- The buffer that is hashed: the prefix hash and the commitments. -/
def ringBuf (prefixHash : Hash) (l : List (G × G)) : Blob :=
  hashBytes prefixHash ++ l.flatMap C.rsCommPoint

def ringHash (prefixHash : Hash) (l : List (G × G)) : ℕ :=
  (hashToScalar H (C.ringBuf prefixHash l)).toNat

theorem ringCommitment_eq (imageUnp : G) (pub : PublicKey) (P : G) (c r : EcScalar) :
    C.ringCommitment H imageUnp pub P c r =
      commitment (P, imageUnp) (C.base, C.hashToEc H pub) c.toNat r.toNat := by
  unfold ringCommitment commitment
  rw [add_comm (r.toNat • _)]
  rfl

theorem ringMembers_cons (imageUnp : G) (pub : PublicKey) (pubs : List PublicKey) :
    C.ringMembers H imageUnp (pub :: pubs) =
      (C.frombytesVartime pub).bind fun P => (C.ringMembers H imageUnp pubs).map fun ms =>
        ⟨(P, imageUnp), (C.base, C.hashToEc H pub)⟩ :: ms := by
  unfold ringMembers
  rw [List.mapM_cons]
  cases C.frombytesVartime pub with
  | none => rfl
  | some P =>
    cases List.mapM (m := Option) _ pubs with
    | none => rfl
    | some ms => rfl

theorem ringMembers_length {imageUnp : G} {pubs : List PublicKey} {ms : List (Member (G × G))}
    (h : C.ringMembers H imageUnp pubs = some ms) : ms.length = pubs.length := by
  induction pubs generalizing ms with
  | nil =>
    obtain rfl : [] = ms := Option.some.inj h
    rfl
  | cons pub pubs ih =>
    rw [ringMembers_cons, Option.bind_eq_some_iff] at h
    obtain ⟨P, -, h⟩ := h
    rw [Option.map_eq_some_iff] at h
    obtain ⟨ms', hms', rfl⟩ := h
    simp [ih hms']

theorem ringMembers_getElem {imageUnp : G} {pubs : List PublicKey} {ms : List (Member (G × G))}
    (h : C.ringMembers H imageUnp pubs = some ms) {i : ℕ} (hi : i < pubs.length)
    (hm : i < ms.length) : ∃ P, C.frombytesVartime pubs[i] = some P ∧
      ms[i] = ⟨(P, imageUnp), (C.base, C.hashToEc H pubs[i])⟩ := by
  induction pubs generalizing ms i with
  | nil => simp at hi
  | cons pub pubs ih =>
    rw [ringMembers_cons, Option.bind_eq_some_iff] at h
    obtain ⟨P, hP, h⟩ := h
    rw [Option.map_eq_some_iff] at h
    obtain ⟨ms', hms', rfl⟩ := h
    cases i with
    | zero => exact ⟨P, hP, rfl⟩
    | succ i => exact ih hms' (by simpa using hi) (by simpa using hm)

/-- The loop of `check_ring_signature` fails at a number that is not reduced or a key that is no
point, and collects the commitments and the sum of the challenges otherwise. -/
theorem checkRingLoop_eq (imageUnp : G) {pubs : List PublicKey} {sigs : List Signature}
    (hlen : sigs.length = pubs.length) (buf : Blob) (sum : EcScalar)
    (hred : ∀ s ∈ sigs, Reduced s) :
    C.checkRingLoop H imageUnp (pubs.zip sigs) buf sum =
      (C.ringMembers H imageUnp pubs).map fun ms =>
        (buf ++ (commitments ms (answers sigs)).flatMap C.rsCommPoint,
          (sigs.map sigC).foldl scAdd sum) := by
  induction pubs generalizing sigs buf sum with
  | nil =>
    obtain rfl := List.length_eq_zero_iff.mp hlen
    simp [checkRingLoop, ringMembers, commitments, answers]
  | cons pub pubs ih =>
    cases sigs with
    | nil => simp at hlen
    | cons s sigs =>
      have hs : Reduced s := hred s List.mem_cons_self
      have hrest (b : Blob) (t : EcScalar) := ih (by simpa using hlen) b t
        fun t ht => hred t (List.mem_cons_of_mem _ ht)
      rw [List.zip_cons_cons, checkRingLoop, if_neg (by rw [not_reduced_iff]; exact not_not.mpr hs),
        ringMembers_cons]
      cases C.frombytesVartime pub with
      | none => rfl
      | some P =>
        simp only [Option.bind_some, Option.map_map]
        rw [hrest]
        apply congrArg (fun f => Option.map f _)
        funext ms
        simp [commitments, answers, ringCommitment_eq, List.append_assoc]

theorem checkRingLoop_none (imageUnp : G) {pubs : List PublicKey} {sigs : List Signature}
    (hlen : sigs.length = pubs.length) (buf : Blob) (sum : EcScalar)
    (hred : ¬ ∀ s ∈ sigs, Reduced s) :
    C.checkRingLoop H imageUnp (pubs.zip sigs) buf sum = none := by
  induction pubs generalizing sigs buf sum with
  | nil =>
    obtain rfl := List.length_eq_zero_iff.mp hlen
    simp at hred
  | cons pub pubs ih =>
    cases sigs with
    | nil => simp at hlen
    | cons s sigs =>
      rw [List.zip_cons_cons, checkRingLoop]
      by_cases hs : Reduced s
      · rw [if_neg (by rw [not_reduced_iff]; exact not_not.mpr hs)]
        cases C.frombytesVartime pub with
        | none => rfl
        | some P =>
          apply ih (by simpa using hlen)
          intro hall
          apply hred
          simpa [hs] using hall
      · rw [if_pos ((not_reduced_iff s).mpr hs)]

theorem cast_foldl_scAdd (sigs : List Signature) (sum : EcScalar) :
    ((((sigs.map sigC).foldl scAdd sum).toNat : ℕ) : ZMod groupOrder) =
      sum.toNat + challenges (answers sigs) := by
  induction sigs generalizing sum with
  | nil => simp [answers, challenges]
  | cons s sigs ih =>
    rw [List.map_cons, List.foldl_cons, ih, toNat_scAdd, ZMod.natCast_mod]
    simp only [answers, challenges, List.map_cons, List.sum_cons]
    push_cast
    ring

theorem checkRingSignature_iff (prefixHash : Hash) (image : KeyImage) {pubs : List PublicKey}
    {sigs : List Signature} (hlen : sigs.length = pubs.length) :
    C.checkRingSignature H prefixHash image pubs sigs = true ↔
      (∀ s ∈ sigs, Reduced s) ∧ ∃ imageUnp ms, C.frombytesVartime image = some imageUnp ∧
        C.ringMembers H imageUnp pubs = some ms ∧
        Verifies groupOrder (C.ringHash H prefixHash) ms (answers sigs) := by
  unfold checkRingSignature
  cases C.frombytesVartime image with
  | none => simp
  | some imageUnp =>
    by_cases hred : ∀ s ∈ sigs, Reduced s
    · simp only [C.checkRingLoop_eq H imageUnp hlen _ _ hred]
      cases hms : C.ringMembers H imageUnp pubs with
      | none => simp [hms]
      | some ms =>
        have hsum := cast_foldl_scAdd sigs 0
        simp only [Option.map_some, scSub_eq_zero_iff, hsum]
        constructor
        · intro h
          refine ⟨hred, imageUnp, ms, rfl, hms, ?_, ?_⟩
          · rw [answers, List.length_map, hlen, C.ringMembers_length H hms]
          · rw [ringHash, ringBuf, h]
            simp
        · rintro ⟨-, I, ms', hI, hms', hv⟩
          obtain rfl := Option.some.inj hI
          obtain rfl := Option.some.inj (hms.symm.trans hms')
          have hv := hv.sum
          rw [ringHash, ringBuf] at hv
          rw [← hv]
          simp
    · simp only [C.checkRingLoop_none H imageUnp hlen _ _ hred, hred, false_and, Bool.false_eq_true]

/-- The answer drawn for a place. -/
def drawn (rnd : ℕ → BitVec 512 × BitVec 512) (j : ℕ) : Signature :=
  mkSig (scReduce (rnd j).1) (scReduce (rnd j).2)

/-- The array while the loop runs; the signer's own place is filled in at the end. -/
def draft (rnd : ℕ → BitVec 512 × BitVec 512) (secIndex j : ℕ) : Signature :=
  if j = secIndex then nullSig else drawn rnd j

/-- The commitment at a place. -/
def draftCommitment (rnd : ℕ → BitVec 512 × BitVec 512) (secIndex : ℕ) (mj : Member (G × G) × ℕ) :
    G × G :=
  if mj.2 = secIndex then (scReduce (rnd mj.2).1).toNat • mj.1.base
  else commitment mj.1.stmt mj.1.base (scReduce (rnd mj.2).1).toNat (scReduce (rnd mj.2).2).toNat

/-- What the loop leaves after the places from `i` on. -/
structure Drafted (rnd : ℕ → BitVec 512 × BitVec 512) (secIndex i : ℕ) (ms : List (Member (G × G)))
    (d d' : RingDraft) : Prop where
  buf : d'.buf = d.buf ++ ((ms.zipIdx i).map (draftCommitment rnd secIndex)).flatMap C.rsCommPoint
  sigs : d'.sigs = d.sigs ++ (List.range' i ms.length).map (draft rnd secIndex)
  sum : (d'.sum.toNat : ZMod groupOrder) =
    d.sum.toNat + challenges (answers ((List.range' i ms.length).map (draft rnd secIndex)))
  k : i ≤ secIndex → secIndex < i + ms.length → d'.k = scReduce (rnd secIndex).1
  k_kept : secIndex < i → d'.k = d.k

theorem challenges_answers_cons (s : Signature) (l : List Signature) :
    challenges (answers (s :: l)) = (sigC s).toNat + challenges (answers l) := by
  simp [challenges, answers]

theorem generateRingLoop_drafted {imageUnp : G} (secIndex : ℕ) (rnd : ℕ → BitVec 512 × BitVec 512)
    {pubs : List PublicKey} {ms : List (Member (G × G))}
    (hms : C.ringMembers H imageUnp pubs = some ms) (i : ℕ) (d : RingDraft) :
    ∃ d', C.generateRingLoop H imageUnp secIndex rnd pubs i d = some d' ∧
      C.Drafted rnd secIndex i ms d d' := by
  induction pubs generalizing ms i d with
  | nil =>
    obtain rfl : [] = ms := Option.some.inj hms
    refine ⟨d, rfl, ?_, ?_, ?_, ?_, ?_⟩
    · simp
    · simp
    · simp [answers, challenges]
    · intro h h'
      simp only [List.length_nil] at h'
      omega
    · intro _
      rfl
  | cons pub pubs ih =>
    rw [ringMembers_cons, Option.bind_eq_some_iff] at hms
    obtain ⟨P, hP, hms⟩ := hms
    rw [Option.map_eq_some_iff] at hms
    obtain ⟨ms', hms', rfl⟩ := hms
    rw [generateRingLoop]
    by_cases hi : i = secIndex
    · -- the signer's place: nothing is drawn for it, and later places leave `k` alone
      rw [if_pos hi]
      obtain ⟨d', hd', hdrafted⟩ := ih hms' (i + 1) { d with
        buf := d.buf ++ C.rsCommPoint (C.scalarmultBase (scReduce (rnd i).1),
          C.scalarmult (scReduce (rnd i).1) (C.hashToEc H pub)),
        k := scReduce (rnd i).1, sigs := d.sigs ++ [nullSig] }
      refine ⟨d', hd', ?_, ?_, ?_, ?_, ?_⟩
      · have hk : (scReduce (rnd i).1).toNat < groupOrder := by
          rw [toNat_scReduce]
          exact Nat.mod_lt _ groupOrder_pos
        rw [hdrafted.buf, scalarmultBase, C.scalarmult_of_lt hk, C.scalarmult_of_lt hk]
        simp [draftCommitment, hi, List.append_assoc]
      · rw [hdrafted.sigs]
        simp [List.range'_succ, draft, hi]
      · rw [hdrafted.sum, List.length_cons, List.range'_succ, List.map_cons,
          challenges_answers_cons, draft, if_pos hi]
        simp [sigC_nullSig]
      · intro _ _
        rw [hdrafted.k_kept (by omega), hi]
      · intro h
        omega
    · rw [if_neg hi]
      simp only [hP]
      obtain ⟨d', hd', hdrafted⟩ := ih hms' (i + 1) { d with
        buf := d.buf ++ C.rsCommPoint (C.ringCommitment H imageUnp pub P (scReduce (rnd i).1)
          (scReduce (rnd i).2)),
        sum := scAdd d.sum (scReduce (rnd i).1),
        sigs := d.sigs ++ [mkSig (scReduce (rnd i).1) (scReduce (rnd i).2)] }
      refine ⟨d', hd', ?_, ?_, ?_, ?_, ?_⟩
      · rw [hdrafted.buf]
        simp only [ringCommitment_eq, List.zipIdx_cons, List.map_cons, List.flatMap_cons,
          draftCommitment, if_neg hi, List.append_assoc]
      · rw [hdrafted.sigs]
        simp [List.range'_succ, draft, drawn, hi]
      · rw [hdrafted.sum, List.length_cons, List.range'_succ, List.map_cons,
          challenges_answers_cons, draft, if_neg hi, drawn, sigC_mkSig, toNat_scAdd,
          ZMod.natCast_mod]
        push_cast
        ring
      · intro h h'
        rw [List.length_cons] at h'
        exact hdrafted.k (by omega) (by omega)
      · intro h
        exact hdrafted.k_kept (by omega)

/-- The signatures with given challenges and responses. -/
def ofAnswers (proof : List (ℕ × ℕ)) : List Signature :=
  proof.map fun p => mkSig (BitVec.ofNat 256 p.1) (BitVec.ofNat 256 p.2)

theorem ofAnswers_answers (sigs : List Signature) : ofAnswers (answers sigs) = sigs := by
  unfold ofAnswers answers
  rw [List.map_map]
  conv_rhs => rw [← List.map_id sigs]
  apply List.map_congr_left
  intro s _
  simp

theorem draft_eq_set (rnd : ℕ → BitVec 512 × BitVec 512) (secIndex n : ℕ) :
    (List.range' 0 n).map (draft rnd secIndex) =
      ((List.range n).map (drawn rnd)).set secIndex nullSig := by
  apply List.ext_getElem (by simp)
  intro j hj hj'
  rw [List.getElem_set]
  by_cases h : secIndex = j
  · simp [draft, h]
  · have h' : ¬ j = secIndex := fun e => h e.symm
    simp [draft, h, h']

theorem draftCommitment_eq_set (rnd : ℕ → BitVec 512 × BitVec 512) {secIndex : ℕ}
    (ms : List (Member (G × G))) (hsec : secIndex < ms.length) :
    (ms.zipIdx 0).map (draftCommitment rnd secIndex) =
      (commitments ms (answers ((List.range ms.length).map (drawn rnd)))).set secIndex
        ((scReduce (rnd secIndex).1).toNat • ms[secIndex].base) := by
  apply List.ext_getElem
  · simp [commitments, answers]
  intro j hj hj'
  rw [List.getElem_set, List.getElem_map]
  by_cases h : secIndex = j
  · subst h
    simp [draftCommitment]
  · have h' : ¬ j = secIndex := fun e => h e.symm
    simp [draftCommitment, h, h', commitments, answers, drawn]

theorem answers_set (sigs : List Signature) (i : ℕ) (s : Signature) :
    answers (sigs.set i s) = (answers sigs).set i ((sigC s).toNat, (sigR s).toNat) :=
  List.map_set

theorem generateRingSignature_eq {prefixHash : Hash} {image : KeyImage} {imageUnp : G}
    {pubs : List PublicKey} {ms : List (Member (G × G))} {secIndex : ℕ} (sec : SecretKey)
    (rnd : ℕ → BitVec 512 × BitVec 512) (himage : C.frombytesVartime image = some imageUnp)
    (hms : C.ringMembers H imageUnp pubs = some ms) (hsec : secIndex < pubs.length) :
    C.generateRingSignature H prefixHash image pubs sec secIndex rnd =
      some (ofAnswers (prove groupOrder (C.ringHash H prefixHash) ms secIndex sec.toNat
        (scReduce (rnd secIndex).1).toNat
        (answers ((List.range pubs.length).map (drawn rnd))))) := by
  have hlen := C.ringMembers_length H hms
  have hsec' : secIndex < ms.length := by omega
  obtain ⟨d, hd, hdrafted⟩ := C.generateRingLoop_drafted H secIndex rnd hms 0
    ⟨hashBytes prefixHash, 0, 0, []⟩
  rw [← hlen]
  generalize hfakes : (List.range ms.length).map (drawn rnd) = fakes
  have hk : d.k = scReduce (rnd secIndex).1 := hdrafted.k (by omega) (by omega)
  have hsigs : d.sigs = fakes.set secIndex nullSig := by
    rw [hdrafted.sigs, List.nil_append, draft_eq_set, hfakes]
  have hbuf : d.buf = C.ringBuf prefixHash ((commitments ms (answers fakes)).set secIndex
      ((scReduce (rnd secIndex).1).toNat • ms[secIndex].base)) := by
    rw [hdrafted.buf, draftCommitment_eq_set rnd ms hsec', ringBuf, hfakes]
  have hsum : (d.sum.toNat : ZMod groupOrder) =
      challenges ((answers fakes).set secIndex (0, 0)) := by
    have hset : answers (fakes.set secIndex nullSig) = (answers fakes).set secIndex (0, 0) := by
      rw [answers_set, sigC_nullSig, sigR_nullSig]
      rfl
    rw [hdrafted.sum, draft_eq_set, hfakes, hset]
    simp
  -- the challenge at the signer's place
  have hc : (scSub (hashToScalar H d.buf) d.sum).toNat = ownChallenge groupOrder
      (C.ringHash H prefixHash) ms secIndex (scReduce (rnd secIndex).1).toNat (answers fakes) := by
    rw [toNat_scSub, ownChallenge_eq _ hsec', hbuf]
    apply eq_of_cast_eq (subMod_lt groupOrder_pos _ _) (subMod_lt groupOrder_pos _ _)
    rw [cast_subMod groupOrder_pos, cast_subMod groupOrder_pos, hsum]
    rfl
  unfold generateRingSignature prove
  rw [himage]
  simp only [hd, Option.map_some]
  rw [← hc, ← hk, ← toNat_scMulsub, hsigs, List.set_set, ofAnswers, List.map_set, BitVec.ofNat_toNat,
    BitVec.ofNat_toNat, BitVec.setWidth_eq, BitVec.setWidth_eq]
  have hback := ofAnswers_answers fakes
  rw [ofAnswers] at hback
  rw [hback]

theorem validate_iff {image : KeyImage} {imageUnp : G}
    (himage : C.frombytesVartime image = some imageUnp) :
    C.validateKeyImage image = true ↔ groupOrder • imageUnp = 0 := by
  have hL : imageL.toNat = groupOrder := toNat_groupOrder
  have hsmall : imageL.toNat < 2 ^ 255 := by
    have := groupOrder_lt
    omega
  unfold validateKeyImage scalarmultKey imageI
  rw [himage, beq_iff_eq]
  dsimp only
  rw [C.scalarmult_eq _ _ hsmall, hL, ← C.tobytes_zero]
  exact C.tobytes_injective.eq_iff

theorem secretKeyToPublicKey_eq_some {sec : SecretKey} {pub : PublicKey} :
    C.secretKeyToPublicKey sec = some pub ↔
      sec.toNat < groupOrder ∧ C.tobytes (sec.toNat • C.base) = pub := by
  unfold secretKeyToPublicKey scCheck
  by_cases h : sec.toNat < groupOrder
  · simp only [h, decide_true, if_true, Option.some.injEq, scalarmultBase, C.scalarmult_of_lt h,
      true_and]
  · simp [h]

theorem ringMembers_isSome (imageUnp : G) {pubs : List PublicKey}
    (hkeys : ∀ pub ∈ pubs, C.checkKey pub = true) :
    ∃ ms, C.ringMembers H imageUnp pubs = some ms := by
  induction pubs with
  | nil => exact ⟨[], rfl⟩
  | cons pub pubs ih =>
    obtain ⟨ms, hms⟩ := ih fun q hq => hkeys q (List.mem_cons_of_mem _ hq)
    obtain ⟨P, hP⟩ := Option.isSome_iff_exists.mp (hkeys pub List.mem_cons_self)
    exact ⟨⟨(P, imageUnp), (C.base, C.hashToEc H pub)⟩ :: ms, by
      rw [ringMembers_cons, hms, hP]
      rfl⟩

theorem order_pair (pub : PublicKey) : groupOrder • (C.base, C.hashToEc H pub) = 0 := by
  rw [Prod.smul_mk, C.base_order, C.order_hashToEc]
  rfl

theorem reduced_ofAnswers {proof : List (ℕ × ℕ)}
    (h : ∀ p ∈ proof, p.1 < groupOrder ∧ p.2 < groupOrder) :
    (∀ s ∈ ofAnswers proof, Reduced s) ∧ answers (ofAnswers proof) = proof := by
  have hmember (p : ℕ × ℕ) (hp : p ∈ proof) :
      (sigC (mkSig (BitVec.ofNat 256 p.1) (BitVec.ofNat 256 p.2))).toNat = p.1 ∧
        (sigR (mkSig (BitVec.ofNat 256 p.1) (BitVec.ofNat 256 p.2))).toNat = p.2 := by
    rw [sigC_mkSig, sigR_mkSig, toNat_ofNat_of_lt (h p hp).1, toNat_ofNat_of_lt (h p hp).2]
    exact ⟨rfl, rfl⟩
  constructor
  · intro s hs
    obtain ⟨p, hp, rfl⟩ := List.mem_map.mp hs
    rw [Reduced, (hmember p hp).1, (hmember p hp).2]
    exact h p hp
  · unfold ofAnswers answers
    rw [List.map_map]
    conv_rhs => rw [← List.map_id proof]
    apply List.map_congr_left
    intro p hp
    exact Prod.ext (hmember p hp).1 (hmember p hp).2

theorem frombytes_generateKeyImage (pub : PublicKey) {sec : SecretKey} (h : sec.toNat < groupOrder) :
    C.frombytesVartime (C.generateKeyImage H pub sec) = some (sec.toNat • C.hashToEc H pub) := by
  rw [generateKeyImage, C.scalarmult_of_lt h, C.frombytes_tobytes]

theorem validate_generateKeyImage (pub : PublicKey) {sec : SecretKey}
    (h : sec.toNat < groupOrder) : C.validateKeyImage (C.generateKeyImage H pub sec) = true := by
  rw [C.validate_iff (C.frombytes_generateKeyImage H pub h), smul_comm, C.order_hashToEc, smul_zero]

/-- The random numbers from which the signer at `secIndex` draws the given answers. -/
def drawsOf (sigs : List Signature) (secIndex : ℕ) (k : EcScalar) (j : ℕ) :
    BitVec 512 × BitVec 512 :=
  if j = secIndex then (BitVec.ofNat 512 k.toNat, BitVec.ofNat 512 (sigR (sigs.getD j nullSig)).toNat)
  else (BitVec.ofNat 512 (sigC (sigs.getD j nullSig)).toNat,
    BitVec.ofNat 512 (sigR (sigs.getD j nullSig)).toNat)

theorem drawn_drawsOf {sigs : List Signature} (hred : ∀ s ∈ sigs, Reduced s) {secIndex : ℕ}
    (k : EcScalar) : ∃ s, (List.range sigs.length).map (drawn (drawsOf sigs secIndex k)) =
      sigs.set secIndex s := by
  refine ⟨drawn (drawsOf sigs secIndex k) secIndex, ?_⟩
  apply List.ext_getElem (by simp)
  intro j hj hj'
  rw [List.getElem_set, List.getElem_map, List.getElem_range]
  by_cases h : secIndex = j
  · rw [if_pos h, h]
  · have hjlen : j < sigs.length := by simpa using hj
    obtain ⟨hc, hr⟩ := hred sigs[j] (List.getElem_mem hjlen)
    have hback {v : EcScalar} (hv : v.toNat < groupOrder) :
        scReduce (BitVec.ofNat 512 v.toNat) = v := by
      apply BitVec.eq_of_toNat_eq
      rw [toNat_scReduce, toNat_ofNat_512 hv, Nat.mod_eq_of_lt hv]
    rw [if_neg h, drawn, drawsOf, if_neg (fun e => h e.symm), List.getD_eq_getElem _ _ hjlen,
      hback hc, hback hr, mkSig_sigC_sigR]

/-- For the key image of the ring member at `secIndex`, the signatures that are accepted are just
those its holder can make. -/
theorem ring_signature_accepted_iff (prefixHash : Hash) {pubs : List PublicKey} {sec : SecretKey}
    {secIndex : ℕ} (hsec : secIndex < pubs.length)
    (hpub : C.secretKeyToPublicKey sec = some pubs[secIndex])
    (hkeys : ∀ pub ∈ pubs, C.checkKey pub = true) {sigs : List Signature}
    (hlen : sigs.length = pubs.length) :
    C.checkRingSignature H prefixHash (C.generateKeyImage H pubs[secIndex] sec) pubs sigs = true ↔
      ∃ rnd, C.generateRingSignature H prefixHash (C.generateKeyImage H pubs[secIndex] sec) pubs sec
        secIndex rnd = some sigs := by
  obtain ⟨hlt, hkey⟩ := C.secretKeyToPublicKey_eq_some.mp hpub
  have himage := C.frombytes_generateKeyImage H pubs[secIndex] hlt
  obtain ⟨ms, hms⟩ := C.ringMembers_isSome H (sec.toNat • C.hashToEc H pubs[secIndex]) hkeys
  have hmlen := C.ringMembers_length H hms
  have hm : secIndex < ms.length := by omega
  -- the signer's member: both points are the secret times their bases
  obtain ⟨P, hP, hmember⟩ := C.ringMembers_getElem H hms hsec hm
  have hPsec : P = sec.toNat • C.base := by
    rw [← hkey, C.frombytes_tobytes] at hP
    exact (Option.some.inj hP).symm
  have hstmt : ms[secIndex].stmt = sec.toNat • ms[secIndex].base := by rw [hmember, hPsec]; rfl
  have hbase : groupOrder • ms[secIndex].base = 0 := by
    rw [hmember]
    exact C.order_pair H _
  rw [C.checkRingSignature_iff H prefixHash _ hlen]
  constructor
  · rintro ⟨hred, imageUnp, ms', himage', hms', hv⟩
    obtain rfl := Option.some.inj (himage.symm.trans himage')
    obtain rfl := Option.some.inj (hms.symm.trans hms')
    have hget : (answers sigs)[secIndex]?.getD (0, 0) =
        ((sigC sigs[secIndex]).toNat, (sigR sigs[secIndex]).toNat) := by
      simp [answers, hlen, hsec]
    let k : EcScalar := BitVec.ofNat 256
      (((sigR sigs[secIndex]).toNat + (sigC sigs[secIndex]).toNat * sec.toNat) % groupOrder)
    have hklt : k.toNat = ((sigR sigs[secIndex]).toNat + (sigC sigs[secIndex]).toNat * sec.toNat) %
        groupOrder := toNat_ofNat_of_lt (Nat.mod_lt _ groupOrder_pos)
    have hk : k.toNat < groupOrder := hklt ▸ Nat.mod_lt _ groupOrder_pos
    refine ⟨drawsOf sigs secIndex k, ?_⟩
    obtain ⟨s, hs⟩ := @drawn_drawsOf _ hred secIndex k
    have hkdraw : (scReduce (drawsOf sigs secIndex k secIndex).1).toNat = k.toNat := by
      rw [toNat_scReduce, drawsOf, if_pos rfl]
      dsimp only
      rw [toNat_ofNat_512 hk, Nat.mod_eq_of_lt hk]
    rw [C.generateRingSignature_eq H sec _ himage hms hsec, ← hlen, hs, answers_set,
      prove_set _ hm, hkdraw, prove_of_verifies hm hstmt hbase _ groupOrder_pos ?_ hv,
      ofAnswers_answers]
    · rw [hget, hklt, ZMod.natCast_mod]
      push_cast
      ring
    · intro p hp
      obtain ⟨t, ht, rfl⟩ := List.mem_map.mp hp
      exact hred t ht
  · rintro ⟨rnd, hrnd⟩
    rw [C.generateRingSignature_eq H sec rnd himage hms hsec] at hrnd
    have hsigs := Option.some.inj hrnd
    have hfakes : (answers ((List.range pubs.length).map (drawn rnd))).length = ms.length := by
      simp [answers, hmlen]
    have hv := verifies_prove hm hstmt hbase (C.ringHash H prefixHash) groupOrder_pos
      (scReduce (rnd secIndex).1).toNat hfakes
    have hdrawn : ∀ p ∈ answers ((List.range pubs.length).map (drawn rnd)),
        p.1 < groupOrder ∧ p.2 < groupOrder := by
      intro p hp
      obtain ⟨t, ht, rfl⟩ := List.mem_map.mp hp
      obtain ⟨j, -, rfl⟩ := List.mem_map.mp ht
      simp only [drawn, sigC_mkSig, sigR_mkSig, toNat_scReduce]
      exact ⟨Nat.mod_lt _ groupOrder_pos, Nat.mod_lt _ groupOrder_pos⟩
    obtain ⟨hred, hanswers⟩ := reduced_ofAnswers (reduced_prove groupOrder_pos
      (C.ringHash H prefixHash) ms secIndex sec.toNat (scReduce (rnd secIndex).1).toNat hdrawn)
    rw [hsigs] at hred hanswers
    exact ⟨hred, _, ms, himage, hms, by rw [hanswers]; exact hv⟩

/-- The buffer that `check_ring_signature` hashes, when it comes to that. -/
def checkedBuf (prefixHash : Hash) (image : KeyImage) (pubs : List PublicKey)
    (sigs : List Signature) : Option Blob :=
  (C.frombytesVartime image).bind fun imageUnp =>
    (C.checkRingLoop H imageUnp (pubs.zip sigs) (hashBytes prefixHash) 0).map Prod.fst

/-- `x` is a secret of the output key, up to the small subgroup, and the key image is made with it. -/
structure SpendsWith (pub : PublicKey) (image : KeyImage) (x : ℕ) : Prop where
  key : ∃ P, C.frombytesVartime pub = some P ∧ 8 • P = x • (8 • C.base)
  image : image = C.tobytes (x • C.hashToEc H pub)

theorem hashBytes_injective : Function.Injective hashBytes := by
  intro a b h
  rw [← ExtraReader.podOfBytes_hashBytes a, h, ExtraReader.podOfBytes_hashBytes]

theorem append_inj_of_hashBytes {a b : BitVec 256} {l l' : Blob}
    (h : hashBytes a ++ l = hashBytes b ++ l') : a = b ∧ l = l' := by
  obtain ⟨hab, hl⟩ := List.append_inj h (by simp [hashBytes])
  exact ⟨hashBytes_injective hab, hl⟩

theorem flatMap_rsCommPoint_inj {l l' : List (G × G)} (hlen : l.length = l'.length)
    (h : l.flatMap C.rsCommPoint = l'.flatMap C.rsCommPoint) : l = l' := by
  induction l generalizing l' with
  | nil => exact (List.length_eq_zero_iff.mp hlen.symm).symm
  | cons p l ih =>
    cases l' with
    | nil => simp at hlen
    | cons q l' =>
      rw [List.flatMap_cons, List.flatMap_cons, rsCommPoint, rsCommPoint, List.append_assoc,
        List.append_assoc] at h
      obtain ⟨h1, h⟩ := append_inj_of_hashBytes h
      obtain ⟨h2, h⟩ := append_inj_of_hashBytes h
      rw [ih (by simpa using hlen) h, Prod.ext (C.tobytes_injective h1) (C.tobytes_injective h2)]

theorem SpendsWith.image_unique {pub : PublicKey} {image image' : KeyImage} {x x' : ℕ}
    (h : C.SpendsWith H pub image x) (h' : C.SpendsWith H pub image' x') : image = image' := by
  obtain ⟨P, hP, hx⟩ := h.key
  obtain ⟨P', hP', hx'⟩ := h'.key
  obtain rfl := Option.some.inj (hP.symm.trans hP')
  have hbase : groupOrder • (8 • C.base) = 0 := C.smul_base 8
  have hne : (8 : ℕ) • C.base ≠ 0 := by
    have : Fact groupOrder.Prime := ⟨prime_groupOrder⟩
    intro h0
    have hdvd := addOrderOf_dvd_iff_nsmul_eq_zero.mpr h0
    rw [addOrderOf_eq_prime C.base_order C.base_ne] at hdvd
    have := Nat.le_of_dvd (by omega) hdvd
    unfold groupOrder at this
    omega
  have hcast := cast_eq_of_nsmul_eq prime_groupOrder hbase hne (hx.symm.trans hx')
  rw [h.image, h'.image, nsmul_congr (C.order_hashToEc H pub) hcast]

theorem mem_checkedBuf {prefixHash : Hash} {image : KeyImage} {imageUnp : G} {pubs : List PublicKey}
    {sigs : List Signature} {ms : List (Member (G × G))}
    (himage : C.frombytesVartime image = some imageUnp)
    (hms : C.ringMembers H imageUnp pubs = some ms) (hlen : sigs.length = pubs.length)
    (hred : ∀ s ∈ sigs, Reduced s) : C.checkedBuf H prefixHash image pubs sigs =
      some (C.ringBuf prefixHash (commitments ms (answers sigs))) := by
  unfold checkedBuf
  rw [himage, Option.bind_some, C.checkRingLoop_eq H imageUnp hlen _ _ hred, hms]
  rfl

theorem ringMembers_congr {H' : Blob → Hash} {imageUnp : G} {pubs : List PublicKey}
    (h : ∀ pub ∈ pubs, H (hashBytes pub) = H' (hashBytes pub)) :
    C.ringMembers H imageUnp pubs = C.ringMembers H' imageUnp pubs := by
  induction pubs with
  | nil => rfl
  | cons pub pubs ih =>
    rw [ringMembers_cons, ringMembers_cons, ih fun q hq => h q (List.mem_cons_of_mem _ hq)]
    unfold hashToEc
    rw [h pub List.mem_cons_self]

/-- Two accepted signatures on one ring with the same commitments, to which the hash gives two
challenges, hold the secret of a ring member, which is extracted from its two answers, and fix its key
image. The hash is `H` for one and `H'` for the other, and both hash the ring's keys alike. -/
theorem ring_signature_fork {H' : Blob → Hash} {prefixHash : Hash} {image : KeyImage}
    {pubs : List PublicKey} {sigs sigs' : List Signature} {buf : Blob}
    (hkeys : ∀ pub ∈ pubs, H (hashBytes pub) = H' (hashBytes pub))
    (hvalid : C.validateKeyImage image = true)
    (hlen : sigs.length = pubs.length) (hlen' : sigs'.length = pubs.length)
    (hsigs : C.checkRingSignature H prefixHash image pubs sigs = true)
    (hsigs' : C.checkRingSignature H' prefixHash image pubs sigs' = true)
    (hbuf : C.checkedBuf H prefixHash image pubs sigs = some buf)
    (hbuf' : C.checkedBuf H' prefixHash image pubs sigs' = some buf)
    (hne : hashToScalar H buf ≠ hashToScalar H' buf) :
    ∃ (i : ℕ) (pub : PublicKey) (a a' : ℕ × ℕ),
      pubs[i]? = some pub ∧ (answers sigs)[i]? = some a ∧ (answers sigs')[i]? = some a' ∧
      C.SpendsWith H pub image (extract groupOrder a.1 a.2 a'.1 a'.2) ∧
      ∀ image' x', C.SpendsWith H pub image' x' → image' = image := by
  obtain ⟨hred, imageUnp, ms, himage, hms, hv⟩ :=
    (C.checkRingSignature_iff H prefixHash image hlen).mp hsigs
  obtain ⟨hred', imageUnp', ms', himage', hms', hv'⟩ :=
    (C.checkRingSignature_iff H' prefixHash image hlen').mp hsigs'
  obtain rfl := Option.some.inj (himage.symm.trans himage')
  rw [← C.ringMembers_congr H hkeys] at hms'
  obtain rfl := Option.some.inj (hms.symm.trans hms')
  have hms'' := hms
  rw [C.ringMembers_congr H hkeys] at hms''
  -- one buffer, so one list of commitments
  have hb := (C.mem_checkedBuf H himage hms hlen hred).symm.trans hbuf
  have hb' := (C.mem_checkedBuf H' himage hms'' hlen' hred').symm.trans hbuf'
  have hbb := Option.some.inj (hb.trans hb'.symm)
  have hcommit : commitments ms (answers sigs) = commitments ms (answers sigs') := by
    apply C.flatMap_rsCommPoint_inj
    · rw [commitments_length _ _ hv.length, commitments_length _ _ hv'.length]
    · exact List.append_cancel_left hbb
  have hhash : (C.ringHash H prefixHash (commitments ms (answers sigs)) : ZMod groupOrder) ≠
      C.ringHash H' prefixHash (commitments ms (answers sigs)) := by
    intro h
    apply hne
    apply BitVec.eq_of_toNat_eq
    unfold ringHash at h
    rw [Option.some.inj hb] at h
    apply eq_of_cast_eq _ _ h
    · exact (toNat_scReduce32 _).symm ▸ Nat.mod_lt _ groupOrder_pos
    · exact (toNat_scReduce32 _).symm ▸ Nat.mod_lt _ groupOrder_pos
  obtain ⟨i, hi, hp, hp', hc, hfork⟩ := exists_fork hv hv' hcommit hhash
  have hmlen := C.ringMembers_length H hms
  obtain ⟨P, hP, hmember⟩ := C.ringMembers_getElem H hms (hmlen ▸ hi) hi
  rw [hmember] at hfork
  -- the first components are multiplied by the cofactor, the second ones lie in the subgroup
  have hkeyfork : commitment (8 • P) (8 • C.base) (answers sigs)[i].1 (answers sigs)[i].2 =
      commitment (8 • P) (8 • C.base) (answers sigs')[i].1 (answers sigs')[i].2 := by
    have h := congrArg (fun z => 8 • z.1) hfork
    simp only [commitment, Prod.fst_add, Prod.smul_fst, smul_add] at h ⊢
    rw [smul_comm _ 8 P, smul_comm _ 8 C.base, smul_comm _ 8 P, smul_comm _ 8 C.base]
    exact h
  have himagefork := congrArg Prod.snd hfork
  have hPorder : groupOrder • (8 • P) = 0 := by
    rw [← mul_smul, mul_comm]
    exact C.curve_order P
  have hx := extract_spec prime_groupOrder hPorder (C.smul_base 8) hc hkeyfork
  have hi' := extract_spec prime_groupOrder ((C.validate_iff himage).mp hvalid)
    (C.order_hashToEc H _) hc himagefork
  have hspend : C.SpendsWith H pubs[i] image (extract groupOrder (answers sigs)[i].1
      (answers sigs)[i].2 (answers sigs')[i].1 (answers sigs')[i].2) := by
    constructor
    · exact ⟨P, hP, hx⟩
    · rw [← C.tobytes_of_frombytes _ _ himage, ← hi']
  exact ⟨i, pubs[i], _, _, List.getElem?_eq_getElem _, List.getElem?_eq_getElem _,
    List.getElem?_eq_getElem _, hspend, fun image' x' h => SpendsWith.image_unique H C h hspend⟩

abbrev SampleGroup : Type := ZMod (8 * groupOrder)

instance : NeZero (8 * groupOrder) := ⟨by unfold groupOrder; omega⟩

theorem sample_val_lt (P : SampleGroup) : P.val + 1 < 2 ^ 256 := by
  have h := ZMod.val_lt P
  have hL := groupOrder_lt
  omega

/-- A cyclic group of the curve's order, its elements encoded by numbers from one on. -/
def sampleOps : CryptoOps SampleGroup where
  base := 8
  tobytes P := BitVec.ofNat 256 (P.val + 1)
  frombytesVartime b :=
    if 1 ≤ b.toNat ∧ b.toNat ≤ 8 * groupOrder then some ((b.toNat - 1 : ℕ) : SampleGroup) else none
  fromfeFrombytesVartime h := (h.toNat : SampleGroup)
  scalarmult a P := a.toNat • P
  undecoded b _ := b
  frombytes_tobytes P := by
    have hval := ZMod.val_lt P
    rw [BitVec.toNat_ofNat, Nat.mod_eq_of_lt (sample_val_lt P), if_pos (by omega),
      Nat.add_sub_cancel, ZMod.natCast_zmod_val]
  tobytes_zero := by
    rw [ZMod.val_zero]
    rfl
  tobytes_of_frombytes b P h := by
    split_ifs at h with hb
    obtain rfl := Option.some.inj h
    rw [ZMod.val_natCast_of_lt (by omega), Nat.sub_add_cancel hb.1, BitVec.ofNat_toNat,
      BitVec.setWidth_eq]
  scalarmult_eq _ _ _ := rfl
  base_order := by
    have h := ZMod.natCast_self (8 * groupOrder)
    push_cast at h
    rw [nsmul_eq_mul, mul_comm]
    exact h
  base_ne := by
    intro h
    have h8 : ((8 : ℕ) : SampleGroup) = 0 := by exact_mod_cast h
    rw [ZMod.natCast_eq_zero_iff] at h8
    have := Nat.le_of_dvd (by omega) h8
    unfold groupOrder at this
    omega
  curve_order P := by
    rw [nsmul_eq_mul, ZMod.natCast_self, zero_mul]

/-- The hash that every buffer but a key is sent to by. -/
def sampleHash (challenge : Hash) (data : Blob) : Hash :=
  if data.length = 32 then 1 else challenge

def sampleSec : SecretKey := 1
def samplePub : PublicKey := sampleOps.tobytes sampleOps.base
def sampleKeyImage : KeyImage := sampleOps.generateKeyImage (sampleHash 1) samplePub sampleSec

theorem samplePub_eq : sampleOps.secretKeyToPublicKey sampleSec = some samplePub := by
  rw [secretKeyToPublicKey_eq_some]
  constructor
  · show 1 < groupOrder
    unfold groupOrder
    omega
  · show sampleOps.tobytes ((1 : ℕ) • sampleOps.base) = samplePub
    rw [one_nsmul]
    rfl

/-- A ring with a decoy. -/
def sampleRing : List PublicKey := [samplePub, sampleOps.tobytes (2 • sampleOps.base)]

/-- Two signatures that differ in the member whose secret is known. -/
def sampleSigs (c r : ℕ) : List Signature := [mkSig c r, mkSig 3 4]

theorem sampleSigs_length (c r : ℕ) : (sampleSigs c r).length = sampleRing.length := by
  simp only [sampleSigs, sampleRing, List.length_cons, List.length_nil]

theorem sample_signatures_accepted :
    sampleOps.checkRingSignature (sampleHash 4) 0 sampleKeyImage sampleRing (sampleSigs 1 1) = true ∧
    sampleOps.checkRingSignature (sampleHash 5) 0 sampleKeyImage sampleRing (sampleSigs 2 0) = true := by
  decide +kernel

theorem ring_signature_accepted_sample :
    sampleOps.checkRingSignature (sampleHash 4) 0 (sampleOps.generateKeyImage (sampleHash 4) samplePub
      sampleSec) sampleRing (sampleSigs 1 1) = true ↔
      ∃ rnd, sampleOps.generateRingSignature (sampleHash 4) 0 (sampleOps.generateKeyImage
        (sampleHash 4) samplePub sampleSec) sampleRing sampleSec 0 rnd = some (sampleSigs 1 1) := by
  have hsec : 0 < sampleRing.length := Nat.succ_pos _
  have hkeys : ∀ pub ∈ sampleRing, sampleOps.checkKey pub = true :=
    List.forall_mem_cons.mpr
      ⟨by decide +kernel, List.forall_mem_singleton.mpr (by decide +kernel)⟩
  exact sampleOps.ring_signature_accepted_iff (sampleHash 4) 0 hsec samplePub_eq hkeys
    (sampleSigs_length 1 1)

theorem ring_signature_fork_sample :
    ∃ (i : ℕ) (pub : PublicKey) (a a' : ℕ × ℕ), sampleRing[i]? = some pub ∧ (answers (sampleSigs 1 1))[i]? = some a ∧
      (answers (sampleSigs 2 0))[i]? = some a' ∧
      sampleOps.SpendsWith (sampleHash 4) pub sampleKeyImage (extract groupOrder a.1 a.2 a'.1 a'.2) ∧
      ∀ image' x', sampleOps.SpendsWith (sampleHash 4) pub image' x' → image' = sampleKeyImage := by
  have hkeys : ∀ pub ∈ sampleRing, sampleHash 4 (hashBytes pub) = sampleHash 5 (hashBytes pub) :=
    fun pub _ => by simp [sampleHash, hashBytes]
  have hvalid := sampleOps.validate_generateKeyImage (sampleHash 1) samplePub
    (sampleOps.secretKeyToPublicKey_eq_some.mp samplePub_eq).1
  have hbuf : sampleOps.checkedBuf (sampleHash 5) 0 sampleKeyImage sampleRing (sampleSigs 2 0) =
      sampleOps.checkedBuf (sampleHash 4) 0 sampleKeyImage sampleRing (sampleSigs 1 1) := by
    decide +kernel
  obtain ⟨buf, hsome⟩ : ∃ buf,
      sampleOps.checkedBuf (sampleHash 4) 0 sampleKeyImage sampleRing (sampleSigs 1 1) = some buf :=
    Option.isSome_iff_exists.mp (by decide +kernel)
  have hne : hashToScalar (sampleHash 4) buf ≠ hashToScalar (sampleHash 5) buf := by
    have hlong : buf.length = 160 := by
      have h : (sampleOps.checkedBuf (sampleHash 4) 0 sampleKeyImage sampleRing (sampleSigs 1 1)).map
          List.length = some 160 := by decide +kernel
      rw [hsome] at h
      exact Option.some.inj h
    unfold hashToScalar sampleHash
    rw [hlong]
    decide +kernel
  exact sampleOps.ring_signature_fork (sampleHash 4) hkeys hvalid (sampleSigs_length 1 1)
    (sampleSigs_length 2 0) sample_signatures_accepted.1 sample_signatures_accepted.2 hsome (hbuf.trans hsome) hne

end CryptoOps
end Boolberry
