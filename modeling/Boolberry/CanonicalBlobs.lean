import Boolberry.BlobRoundTrip

/-!
# Canonical blobs

`serialize_uvarint` takes the value of a varint whatever `read_varint` answers, so
a blob may be accepted although a varint in it is cut off, too wide or longer
than it has to be. Exactly the blobs without such a varint come back when the
parsed object is written again.
-/

namespace Boolberry
open Reading Reader

/-- Every varint that is read from the blob of a transaction is complete, minimal and fits. -/
def CanonicalTxBlob (blob : Blob) : Prop := ((readTransaction checkedVarint).all blob).isSome

def CanonicalBlockBlob (blob : Blob) : Prop := ((readBlock checkedVarint).all blob).isSome

/-- The parts of a block that its id is computed from. -/
def Block.hashed (b : Block) : BlockHeader × TransactionPrefix × List Hash :=
  (b.toBlockHeader, b.minerTx.toTransactionPrefix, b.txHashes)

theorem Block.ext_hashed {b₁ b₂ : Block} (hheader : b₁.toBlockHeader = b₂.toBlockHeader)
    (hminer : b₁.minerTx.toTransactionPrefix = b₂.minerTx.toTransactionPrefix)
    (hsigs : b₁.minerTx.signatures = b₂.minerTx.signatures) (hhashes : b₁.txHashes = b₂.txHashes) :
    b₁ = b₂ := by
  obtain ⟨header₁, ⟨pre₁, sigs₁⟩, hashes₁⟩ := b₁
  obtain ⟨header₂, ⟨pre₂, sigs₂⟩, hashes₂⟩ := b₂
  simp only at hheader hminer hsigs hhashes
  rw [hheader, hminer, hsigs, hhashes]

section Rewriting

variable {α : Type} {r r' : Reader UInt8 α} {w : α → Blob} {P : α → Prop}

theorem write_eq_iff (hinv : Inverts r w P) (hexact : Reading.Exact r w) (hbelow : Below r r')
    (hyields : Yields r' P) {blob : Blob} {a : α} (h : r'.all blob = some a) :
    w a = blob ↔ (r.all blob).isSome := by
  constructor
  · intro hw
    have hread := hinv.all (hyields.all h)
    rw [hw] at hread
    rw [hread]
    rfl
  · intro hsome
    obtain ⟨a', ha'⟩ := Option.isSome_iff_exists.mp hsome
    -- both readers give one value
    have hsame := hbelow.all ha'
    rw [h] at hsame
    obtain rfl := Option.some.inj hsame
    exact (hexact.all ha').symm

end Rewriting

theorem writeTransaction_eq_iff {blob : Blob} {t : Transaction}
    (h : parseAndValidateTxFromBlob blob = some t) :
    txToBlob t = some blob ↔ CanonicalTxBlob blob := by
  have hyields := yields_readTransaction yields_serializeUvarint
  rw [txToBlob_eq (hyields.all h).1, Option.some.injEq]
  exact write_eq_iff inverts_readTransaction exact_readTransaction
    (below_readTransaction below_checkedVarint) hyields h

theorem writeBlock_eq_iff {blob : Blob} {b : Block}
    (h : parseAndValidateBlockFromBlob blob = some b) :
    blockToBlob b = some blob ↔ CanonicalBlockBlob blob := by
  have hyields := yields_readBlock yields_serializeUvarint
  obtain ⟨hmajor, hversion, -⟩ := hyields.all h
  rw [blockToBlob_eq hmajor hversion, Option.some.injEq]
  exact write_eq_iff inverts_readBlock exact_readBlock (below_readBlock below_checkedVarint) hyields h

/-- Writing a parsed object gives the parsed blob back exactly when every varint of the blob is
complete, minimal and fits. Among such blobs there is one for a transaction with its signatures, and
one for a block id with the coinbase's signatures, which the id does not cover, as long as the ids of
the two blocks do not collide. -/
theorem rewritten_iff_canonical (E : Env) :
    (∀ blob t, parseAndValidateTxFromBlob blob = some t →
      (txToBlob t = some blob ↔ CanonicalTxBlob blob)) ∧
    (∀ blob b, parseAndValidateBlockFromBlob blob = some b →
      (blockToBlob b = some blob ↔ CanonicalBlockBlob blob)) ∧
    (∀ blob₁ blob₂ t, CanonicalTxBlob blob₁ → CanonicalTxBlob blob₂ →
      parseAndValidateTxFromBlob blob₁ = some t → parseAndValidateTxFromBlob blob₂ = some t →
      blob₁ = blob₂) ∧
    ∀ blob₁ blob₂ b₁ b₂, CanonicalBlockBlob blob₁ → CanonicalBlockBlob blob₂ →
      parseAndValidateBlockFromBlob blob₁ = some b₁ →
      parseAndValidateBlockFromBlob blob₂ = some b₂ →
      (getBlockHash E b₁ = getBlockHash E b₂ → b₁.hashed = b₂.hashed) →
      getBlockHash E b₁ = getBlockHash E b₂ →
      (blob₁ = blob₂ ↔ b₁.minerTx.signatures = b₂.minerTx.signatures) := by
  refine ⟨fun _ _ => writeTransaction_eq_iff, fun _ _ => writeBlock_eq_iff, ?_, ?_⟩
  · intro blob₁ blob₂ t hc₁ hc₂ h₁ h₂
    have hw₁ := (writeTransaction_eq_iff h₁).mpr hc₁
    have hw₂ := (writeTransaction_eq_iff h₂).mpr hc₂
    rw [hw₁] at hw₂
    exact Option.some.inj hw₂
  · intro blob₁ blob₂ b₁ b₂ hc₁ hc₂ h₁ h₂ hcoll hid
    have hhashed := hcoll hid
    simp only [Block.hashed, Prod.mk.injEq] at hhashed
    obtain ⟨hheader, hminer, hhashes⟩ := hhashed
    constructor
    · rintro rfl
      rw [h₁] at h₂
      rw [Option.some.inj h₂]
    · intro hsigs
      have hblock : b₁ = b₂ := Block.ext_hashed hheader hminer hsigs hhashes
      subst hblock
      have hw₁ := (writeBlock_eq_iff h₁).mpr hc₁
      have hw₂ := (writeBlock_eq_iff h₂).mpr hc₂
      rw [hw₁] at hw₂
      exact Option.some.inj hw₂

/-- A version written in two bytes, and no count of the signatures at the end. -/
def longVersionTx : Blob := [0x81, 0x00, 0, 0, 0, 0, 0]
def cutOffTx : Blob := [0x01, 0, 0, 0, 0]

/-- A block without transactions, and its blob without the byte that says so. -/
def plainBlock (signatures : List (List Signature)) : Block :=
  { majorVersion := 1, minorVersion := 0, timestamp := 0, prevId := 0, nonce := 0, flags := 0
    minerTx := ⟨⟨1, 0, [], [], []⟩, signatures⟩, txHashes := [] }

def cutOffBlock : Blob := (writeBlock (plainBlock [])).dropLast

theorem noncanonical_accepted :
    (∃ t, parseAndValidateTxFromBlob longVersionTx = some t ∧
      parseAndValidateTxFromBlob cutOffTx = some t ∧
      txToBlob t ≠ some longVersionTx ∧ txToBlob t ≠ some cutOffTx) ∧
    ∃ b, parseAndValidateBlockFromBlob cutOffBlock = some b ∧ blockToBlob b ≠ some cutOffBlock :=
  ⟨⟨⟨⟨1, 0, [], [], []⟩, []⟩, by decide +kernel⟩, plainBlock [], by decide +kernel⟩

theorem rewritten_iff_canonical_plain :
    txToBlob ⟨⟨1, 0, [], [], []⟩, []⟩ = some [1, 0, 0, 0, 0, 0] ∧
    blockToBlob (plainBlock [[5]]) = some (writeBlock (plainBlock [[5]])) ∧
    (writeBlock (plainBlock []) = writeBlock (plainBlock [[5]]) ↔
      (plainBlock []).minerTx.signatures = (plainBlock [[5]]).minerTx.signatures) := by
  have htx : parseAndValidateTxFromBlob [1, 0, 0, 0, 0, 0] = some ⟨⟨1, 0, [], [], []⟩, []⟩ := by
    decide +kernel
  have hb : parseAndValidateBlockFromBlob (writeBlock (plainBlock [])) = some (plainBlock []) := by
    decide +kernel
  have hb' : parseAndValidateBlockFromBlob (writeBlock (plainBlock [[5]])) =
      some (plainBlock [[5]]) := by decide +kernel
  have hc : CanonicalBlockBlob (writeBlock (plainBlock [])) := by
    unfold CanonicalBlockBlob
    decide +kernel
  have hc' : CanonicalBlockBlob (writeBlock (plainBlock [[5]])) := by
    unfold CanonicalBlockBlob
    decide +kernel
  have hctx : CanonicalTxBlob [1, 0, 0, 0, 0, 0] := by
    unfold CanonicalTxBlob
    decide +kernel
  obtain ⟨h₁, h₂, -, h₄⟩ := rewritten_iff_canonical sampleEnv
  exact ⟨(h₁ _ _ htx).mpr hctx, (h₂ _ _ hb').mpr hc', h₄ _ _ _ _ hc hc' hb hb' (fun _ => rfl) rfl⟩

end Boolberry
