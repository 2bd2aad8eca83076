import Boolberry.SpentOutputs

/-!
# Runs of the pool

The two containers of the pool, `m_transactions` and `m_spent_key_images`, under
any sequence of its operations.
-/

namespace Boolberry
open KeyValue

namespace TxMemoryPool

def purgeTransactions (_ : TxMemoryPool) : TxMemoryPool := empty

/-- What is done to a pool. The chain's answer `check` may be another one at every call. -/
inductive Op where
  | addTx (now : ℕ) (check : Transaction → Option (ℕ × Hash)) (tx : Transaction)
      (tvc : TxVerificationContext) (keptByBlock : Bool)
  | takeTx (id : Hash)
  | removeStuckTransactions (now : ℕ) (order : List Hash)
  | purgeTransactions

/-- The pool after an operation. -/
def Op.apply (E : Env) (p : TxMemoryPool) : Op → TxMemoryPool
  | .addTx now check tx tvc keptByBlock =>
      (p.addTx now check tx (getTransactionHash E tx) tvc keptByBlock).2.2
  | .takeTx id =>
      match p.takeTx E id with
      | none => p
      | some r => r.2
  | .removeStuckTransactions now order => p.removeStuckTransactions E now order
  | .purgeTransactions => p.purgeTransactions

/-- A transaction comes to the pool through `check_tx_semantic`. -/
def Op.Checked (E : Env) : Op → Prop
  | .addTx _ _ tx _ keptByBlock => ∃ limit, checkTxSemantic E limit tx keptByBlock = true
  | _ => True

def run (E : Env) (ops : List Op) : TxMemoryPool := ops.foldl (Op.apply E) empty

/-- Two transactions share a key image only if one of them is kept by a block. -/
def SharedKept (p : TxMemoryPool) : Prop :=
  ∀ id id' d d' k, id ≠ id' → p.transactions.get id = some d → p.transactions.get id' = some d' →
    k ∈ keyImages d.tx → k ∈ keyImages d'.tx → d.keptByBlock = true ∨ d'.keptByBlock = true

theorem SharedKept.mono {p p' : TxMemoryPool} (h : SharedKept p)
    (hsub : ∀ id d, p'.transactions.get id = some d → p.transactions.get id = some d) :
    SharedKept p' :=
  fun id id' d d' k hne hd hd' => h id id' d d' k hne (hsub id d hd) (hsub id' d' hd')

theorem SharedKept.set {E : Env} {p p' : TxMemoryPool} {id : Hash} {d : TxDetails} (h : SharedKept p)
    (hp : PoolOK E p)
    (hd : d.keptByBlock = true ∨ ∀ k ∈ keyImages d.tx, p.spentKeyImages.get k = none)
    (hset : p'.transactions = p.transactions.set id d) : SharedKept p' := by
  -- no other entry spends a key image that is free
  have hfree : ∀ id' d' k, p.transactions.get id' = some d' → k ∈ keyImages d.tx →
      k ∈ keyImages d'.tx → d.keptByBlock = true := by
    intro id' d' k hget hk hk'
    rcases hd with hd | hd
    · exact hd
    · have hmem := (hp.mem_imageSet k id').mpr ⟨d', hget, hk'⟩
      simp [imageSet, hd k hk] at hmem
  intro id₁ id₂ d₁ d₂ k hne h₁ h₂ hk₁ hk₂
  rw [hset, Map.get_set] at h₁ h₂
  split_ifs at h₁ h₂ with e₁ e₂ e₂
  · exact absurd (e₁.trans e₂.symm) hne
  · obtain rfl := Option.some.inj h₁
    exact Or.inl (hfree id₂ d₂ k h₂ hk₁ hk₂)
  · obtain rfl := Option.some.inj h₂
    exact Or.inr (hfree id₁ d₁ k h₁ hk₂ hk₁)
  · exact h id₁ id₂ d₁ d₂ k hne h₁ h₂ hk₁ hk₂

theorem apply_spec {E : Env} {p : TxMemoryPool} {o : Op} (hp : PoolOK E p) (hk : SharedKept p)
    (ho : o.Checked E) : PoolOK E (o.apply E p) ∧ SharedKept (o.apply E p) := by
  cases o with
  | addTx now check tx tvc kept =>
    obtain ⟨limit, hlimit⟩ := ho
    rcases addTx_spec now check tvc kept hp (semantic_of_checkTxSemantic hlimit) with
      ⟨-, h⟩ | ⟨-, hp', -, hkept, d, rfl, rfl, hset⟩
    · simp only [Op.apply, h]
      exact ⟨hp, hk⟩
    · exact ⟨hp', hk.set hp hkept hset⟩
  | takeTx id =>
    cases hget : p.transactions.get id with
    | none =>
      simp only [Op.apply, takeTx, hget]
      exact ⟨hp, hk⟩
    | some d =>
      simp only [Op.apply, takeTx, hget]
      refine ⟨eraseTx_spec hp hget, hk.mono fun id' d' h' => ?_⟩
      simp only [eraseTx, Map.get_erase] at h'
      split_ifs at h'
      exact h'
  | removeStuckTransactions now order =>
    obtain ⟨hp', hsub⟩ := removeStuckTransactions_spec now order hp
    exact ⟨hp', hk.mono hsub⟩
  | purgeTransactions =>
    refine ⟨poolOK_empty E, fun id id' d d' k _ hd => ?_⟩
    simp [Op.apply, purgeTransactions, empty] at hd

theorem run_spec {E : Env} {ops : List Op} (h : ∀ o ∈ ops, o.Checked E) :
    PoolOK E (run E ops) ∧ SharedKept (run E ops) := by
  induction ops using List.reverseRecOn with
  | nil =>
    refine ⟨poolOK_empty E, fun id id' d d' k _ hd => ?_⟩
    simp [run, empty] at hd
  | append_singleton ops o ih =>
    obtain ⟨hp, hk⟩ := ih fun o' ho' => h o' (by simp [ho'])
    rw [run, List.foldl_append]
    exact apply_spec hp hk (h o (by simp))

/-- In every pool reached by its operations, `m_spent_key_images` maps each key image to the
non-empty set of the transactions that spend it, transactions share a key image only if one of them
is kept by a block, and an `add_tx` that answers `false` changes nothing. -/
theorem spentKeyImages_of_run (E : Env) (ops : List Op) (h : ∀ o ∈ ops, o.Checked E) :
    let p := run E ops
    (∀ k ids, p.spentKeyImages.get k = some ids → ids.Nonempty) ∧
    (∀ k id, id ∈ (p.spentKeyImages.get k).getD ∅ ↔
      ∃ d, p.transactions.get id = some d ∧ k ∈ keyImages d.tx) ∧
    SharedKept p ∧
    ∀ now check tx tvc kept limit, checkTxSemantic E limit tx kept = true →
      (p.addTx now check tx (getTransactionHash E tx) tvc kept).1 = false →
      (p.addTx now check tx (getTransactionHash E tx) tvc kept).2.2 = p := by
  intro p
  obtain ⟨hp, hk⟩ := run_spec h
  refine ⟨fun k ids hids => ?_, hp.mem_imageSet, hk, ?_⟩
  · refine Finset.nonempty_iff_ne_empty.mpr ?_
    rintro rfl
    exact hp.nonempty k hids
  · intro now check tx tvc kept limit hlimit hfalse
    rcases addTx_spec now check tvc kept hp (semantic_of_checkTxSemantic hlimit) with
      ⟨-, h'⟩ | ⟨h', -⟩
    · exact h'
    · rw [hfalse] at h'
      simp at h'

/-- Two transactions with one key image, the second brought by a block. -/
def sharingOps : List Op :=
  [.addTx 0 (fun _ => some (0, 0)) (sampleSpend 1) {} false,
    .addTx 0 (fun _ => none) { sampleSpend 1 with unlockTime := 1 } {} true]

/-- Both are in the pool, and the key image lists both. -/
theorem spentKeyImages_sharingOps :
    ((run sampleEnv sharingOps).spentKeyImages.get 1).map Finset.card = some 2 ∧
      SharedKept (run sampleEnv sharingOps) := by
  refine ⟨by decide +kernel, (spentKeyImages_of_run sampleEnv sharingOps ?_).2.2.1⟩
  intro o ho
  simp only [sharingOps, List.mem_cons, List.not_mem_nil, or_false] at ho
  rcases ho with rfl | rfl
  · exact ⟨100000, by decide +kernel⟩
  · exact ⟨100000, by decide +kernel⟩

end TxMemoryPool
end Boolberry
