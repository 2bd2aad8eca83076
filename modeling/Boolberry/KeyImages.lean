import Boolberry.Lib.ListIndex
import Boolberry.WalletSpend
import Boolberry.WalletSync

/-!
# The index of key images

`m_key_images` has the images of the wallet's transfers, as far as they are known. A
view-only wallet does not know all of them, and `detach_blockchain` throws at a transfer
whose image it does not know.
-/

namespace Boolberry
open KeyValue Aborting

namespace Wallet2

/-- The key images of the transfers; null ones are not known yet. -/
def images (w : Wallet2) : List KeyImage := w.transfers.map TransferDetails.keyImage

/-- `m_key_images` has exactly the images of the transfers that are not null, each with the position
of the transfer that holds it. -/
def KeyImagesExact (w : Wallet2) : Prop :=
  Indexes (fun ki => ki ≠ nullKeyImage) w.keyImages w.images

/-- The images and their index are those of `w`. -/
structure SameImages (w w' : Wallet2) : Prop where
  keyImages : w'.keyImages = w.keyImages
  images : w'.images = w.images
  isViewOnly : w'.isViewOnly = w.isViewOnly

section Same

variable {w₀ w : Wallet2}

theorem SameImages.refl : SameImages w w := ⟨rfl, rfl, rfl⟩

theorem SameImages.exact (h : SameImages w₀ w) (hw : KeyImagesExact w₀) : KeyImagesExact w := by
  unfold KeyImagesExact
  rw [h.keyImages, h.images]
  exact hw

theorem map_keyImage_modify (l : List TransferDetails) (i : ℕ) {f : TransferDetails → TransferDetails}
    (hf : ∀ td, (f td).keyImage = td.keyImage) :
    (l.modify i f).map TransferDetails.keyImage = l.map TransferDetails.keyImage := by
  refine List.ext_getElem? fun j => ?_
  rw [List.getElem?_map, List.getElem?_map, List.getElem?_modify]
  cases l[j]? with
  | none => rfl
  | some td =>
    simp only [Option.map_eq_map, Option.map_some]
    split_ifs
    · rw [hf]
    · rfl

theorem SameImages.modify (h : SameImages w₀ w) (i : ℕ) {f : TransferDetails → TransferDetails}
    (hf : ∀ td, (f td).keyImage = td.keyImage) :
    SameImages w₀ { w with transfers := w.transfers.modify i f } :=
  ⟨h.keyImages, (map_keyImage_modify _ _ hf).trans h.images, h.isViewOnly⟩

theorem setTransferSpentFlag_same {i : ℕ} {spentFlag : Bool} (h : SameImages w₀ w) :
    Leaves (SameImages w₀) id (setTransferSpentFlag i spentFlag w) := by
  unfold setTransferSpentFlag
  split_ifs
  · exact .ok (h.modify i fun _ => rfl)
  · exact .error h

theorem setSpentFlags_same {l : List ℕ} {spentFlag : Bool} (h : SameImages w₀ w) :
    Leaves (SameImages w₀) id (setSpentFlags spentFlag l w) := by
  induction l generalizing w with
  | nil => exact .ok h
  | cons i l ih =>
    unfold setSpentFlags
    have hflag : Leaves (SameImages w₀) id (setTransferSpentFlag i spentFlag w) :=
      setTransferSpentFlag_same h
    split
    · next hw =>
      rw [hw, leaves_error] at hflag
      exact .error hflag
    · next hw =>
      rw [hw, leaves_ok] at hflag
      exact ih hflag

theorem relayTransaction_same {x : SpendEnv} {sources : List ℕ} {doNotRelay : Bool}
    (h : SameImages w₀ w) : Leaves (SameImages w₀) id (relayTransaction x sources doNotRelay w) := by
  unfold relayTransaction
  cases doNotRelay with
  | true => exact setSpentFlags_same h
  | false =>
    have hflags : Leaves (SameImages w₀) id
        (setSpentFlags (decide (x.sendRawTx.2 = .ok)) sources w) := setSpentFlags_same h
    simp only [Bool.false_eq_true, if_false]
    split
    · next hw =>
      rw [hw, leaves_error] at hflags
      exact .error hflags
    · next hw =>
      rw [hw, leaves_ok] at hflags
      split_ifs
      · exact .ok hflags
      · exact .error hflags

theorem cancelSources_same {l : List ℕ} (h : SameImages w₀ w) :
    Leaves (SameImages w₀) id (cancelSources l w) := by
  induction l generalizing w with
  | nil => exact .ok h
  | cons i l ih =>
    unfold cancelSources
    split_ifs
    · exact ih (h.modify i fun _ => rfl)
    · exact .error h

end Same

section Receive

variable {E : WalletEnv} {height : ℕ} {w w' : Wallet2}

theorem addTransfer_exact {td : TransferDetails} (hw : KeyImagesExact w)
    (hnew : w.findKnown td.keyImage = none) : KeyImagesExact (w.addTransfer td) := by
  unfold KeyImagesExact images addTransfer at *
  unfold findKnown at hnew
  simp only [List.map_append, List.map_cons, List.map_nil]
  split_ifs at hnew ⊢ with hnull
  · exact hw.append_other fun h => h hnull
  · have := hw.append_key hnull hnew
    rwa [List.length_map] at this

/-- Scanning keeps the index: a new output is entered when its image is known and new. -/
theorem Changes.exact (h : Changes E height w w') (hw : KeyImagesExact w) : KeyImagesExact w' := by
  induction h with
  | refl => exact hw
  | tail _ hstep ih =>
    cases hstep with
    | transfer td _ hnew => exact addTransfer_exact ih hnew
    | spent =>
      exact (SameImages.refl.modify (f := fun td => { td with spent := true }) _ fun _ => rfl).exact ih
    | _ => exact ih

end Receive

section Detach

variable {w w' : Wallet2}

theorem detachKeyImages_eq {l : List TransferDetails}
    (hnodup : (l.map TransferDetails.keyImage).Nodup)
    (hknown : ∀ td ∈ l, (w.keyImages.get td.keyImage).isSome) :
    detachKeyImages l w =
      .ok { w with keyImages := w.keyImages.eraseAll (l.map TransferDetails.keyImage) } := by
  induction l generalizing w with
  | nil => rfl
  | cons td l ih =>
    rw [List.map_cons, List.nodup_cons] at hnodup
    obtain ⟨p, hp⟩ := Option.isSome_iff_exists.mp (hknown td (by simp))
    unfold detachKeyImages
    rw [hp]
    refine ih hnodup.2 fun td' htd' => ?_
    -- the image erased is not one of the others
    simp only
    rw [Map.get_erase_of_ne]
    · exact hknown td' (by simp [htd'])
    · intro heq
      exact hnodup.1 (heq ▸ List.mem_map_of_mem htd')

theorem detachKeyImages_known {l : List TransferDetails} (h : detachKeyImages l w = .ok w') :
    ∀ td ∈ l, (w.keyImages.get td.keyImage).isSome := by
  induction l generalizing w with
  | nil => simp
  | cons td l ih =>
    unfold detachKeyImages at h
    split at h
    · cases h
    · next p hp =>
      intro td' htd'
      rcases List.mem_cons.mp htd' with rfl | htd'
      · rw [hp]
        rfl
      · have := ih h td' htd'
        simp only at this
        rw [Map.get_erase] at this
        split_ifs at this
        · cases this
        · exact this

/-- The transfers a split at `h` takes away have known images. -/
def DetachableFrom (h : ℕ) (w : Wallet2) : Prop :=
  ∀ td ∈ w.transfers.drop (w.detachStart h), td.keyImage ≠ nullKeyImage

theorem detachBlockchain_exact (hw : KeyImagesExact w) {h : ℕ} (hdetach : DetachableFrom h w) :
    ∃ w', detachBlockchain h w = .ok w' ∧ KeyImagesExact w' := by
  have hkeys : ∀ ki ∈ w.images.drop (w.detachStart h), ki ≠ nullKeyImage := by
    intro ki hki
    rw [images, ← List.map_drop] at hki
    obtain ⟨td, htd, rfl⟩ := List.mem_map.mp hki
    exact hdetach td htd
  have hnodup := hw.nodup_drop hkeys
  rw [images, ← List.map_drop] at hnodup
  have hknown : ∀ td ∈ w.transfers.drop (w.detachStart h), (w.keyImages.get td.keyImage).isSome := by
    intro td htd
    obtain ⟨i, hi⟩ := List.mem_iff_getElem?.mp htd
    rw [List.getElem?_drop] at hi
    have := (hw td.keyImage (w.detachStart h + i)).mpr
      ⟨hdetach td htd, by rw [images, List.getElem?_map, hi, Option.map_some]⟩
    rw [this]
    rfl
  refine ⟨_, by rw [detachBlockchain, detachKeyImages_eq hnodup hknown, ok_bind], ?_⟩
  have := hw.take (w.detachStart h)
  unfold KeyImagesExact images at *
  rwa [← List.map_take, ← List.map_drop] at this

/-- Detaching completes exactly when the images of all it takes away are known. -/
theorem detachBlockchain_exact_iff (hw : KeyImagesExact w) (h : ℕ) :
    (∃ w', detachBlockchain h w = .ok w' ∧ KeyImagesExact w') ↔ DetachableFrom h w := by
  refine ⟨fun ⟨w', hw', _⟩ td htd hnull => ?_, detachBlockchain_exact hw⟩
  obtain ⟨w₁, hkeys, -⟩ := bind_eq_ok.mp hw'
  obtain ⟨p, hp⟩ := Option.isSome_iff_exists.mp (detachKeyImages_known hkeys td htd)
  exact ((hw _ p).mp hp).1 hnull

end Detach

section Pull

variable {E : WalletEnv} {w : Wallet2}

theorem addServed_exact (sb : ServedBlock) (hw : KeyImagesExact w) :
    Leaves KeyImagesExact id (addServed E w sb) := by
  unfold addServed
  split
  · exact .error hw
  · unfold processNewBlockchainEntry
    split_ifs
    · exact .error hw
    · exact ((scanBlock_changes .refl).mono fun _ h => h.exact hw).bind fun _ h => .ok h

theorem addAll_exact {l : List ServedBlock} (hw : KeyImagesExact w) :
    Leaves KeyImagesExact id (addAll E l w) := Leaves.foldlM (fun _ sb h => addServed_exact sb h) hw

theorem pullBlocksGo_top_exact {start added : ℕ} {l : List ServedBlock} (hw : KeyImagesExact w) :
    Leaves KeyImagesExact Prod.snd (pullBlocksGo E start w.blockchain.length l added w) := by
  rw [pullBlocksGo_eq_addAll]
  exact (addAll_exact hw).bind fun _ h => .ok h

/-- The round of a split, at a height where the wallet has another block. -/
theorem pullBlocksGo_split_exact {start added d : ℕ} {sb : ServedBlock} {l : List ServedBlock} {bl : Block}
    {id : Hash} (hw : KeyImagesExact w) (hsb : parseAndValidateBlockFromBlob sb.block = some bl)
    (hid : w.blockchain[d]? = some id) (hother : getBlockHash E.toEnv bl ≠ id)
    (hdetach : start < d → DetachableFrom d w) (hle : start ≤ d) :
    Leaves KeyImagesExact Prod.snd (pullBlocksGo E start d (sb :: l) added w) := by
  unfold pullBlocksGo pullBlock
  simp only [hsb, hid, if_neg hother]
  split_ifs with hstart
  · exact .error hw
  · obtain ⟨w₁, hw₁, hexact⟩ := detachBlockchain_exact hw (hdetach (by omega))
    have hlen : d = w₁.blockchain.length := by
      have := (List.getElem?_eq_some_iff.mp hid).1
      rw [detachBlockchain_blockchain hw₁, List.length_take]
      omega
    have hadd : processNewBlockchainEntry E bl sb (getBlockHash E.toEnv bl) d w₁ = addServed E w₁ sb := by
      unfold addServed
      rw [hsb, hlen]
    have hleaves := addServed_exact (E := E) sb hexact
    simp only [hw₁, ok_bind, hadd]
    cases hr : addServed E w₁ sb with
    | error w₂ =>
      rw [hr, leaves_error] at hleaves
      exact .error hleaves
    | ok w₂ =>
      rw [hr, leaves_ok] at hleaves
      obtain ⟨id', -, hchain⟩ := addServed_blockchain hr
      have htop : d + 1 = w₂.blockchain.length := by rw [hchain, List.length_append, ← hlen]; rfl
      rw [ok_bind, ok_bind, htop]
      exact pullBlocksGo_top_exact hleaves

theorem pullBlocksGo_exact {start index added : ℕ} {l : List ServedBlock} (hw : KeyImagesExact w)
    (hle : start ≤ index)
    (hdetach : ∀ d, splitHeight E.toEnv w.blockchain index l = some d → start < d →
      ((l[d - index]?).bind (ServedBlock.id? E.toEnv)).isSome → DetachableFrom d w) :
    Leaves KeyImagesExact Prod.snd (pullBlocksGo E start index l added w) := by
  induction l generalizing index added with
  | nil => exact .ok hw
  | cons sb l ih =>
    by_cases htop : index = w.blockchain.length
    · rw [htop]
      exact pullBlocksGo_top_exact hw
    cases hsb : parseAndValidateBlockFromBlob sb.block with
    | none =>
      unfold pullBlocksGo pullBlock
      simp only [hsb]
      exact .error hw
    | some bl =>
      have hblock : sb.id? E.toEnv = some (getBlockHash E.toEnv bl) := by
        rw [ServedBlock.id?, hsb, Option.map_some]
      cases hid : w.blockchain[index]? with
      | none =>
        -- a gap
        unfold pullBlocksGo pullBlock processNewBlockchainEntry
        simp only [hsb, hid, if_pos htop]
        exact .error hw
      | some id =>
        rw [splitHeight] at hdetach
        simp only [hid, hblock, Option.some.injEq] at hdetach
        by_cases heq : getBlockHash E.toEnv bl = id
        · -- a block the wallet has
          unfold pullBlocksGo pullBlock
          simp only [hsb, hid, heq, if_true, ok_bind, Bool.false_eq_true, if_false]
          refine ih (by omega) fun d hd hstart hsome => ?_
          refine hdetach d (by rw [if_pos heq]; exact hd) hstart ?_
          have hlt := splitHeight_ge hd
          rwa [show d - index = d - (index + 1) + 1 by omega, List.getElem?_cons_succ]
        · refine pullBlocksGo_split_exact hw hsb hid heq (fun hstart => ?_) hle
          refine hdetach index (by rw [if_neg heq]) hstart ?_
          rw [Nat.sub_self, List.getElem?_cons_zero, Option.bind_some, hblock]
          rfl

end Pull

/-- The images a transaction gives to its sources can be entered: none is null, none belongs to another
transfer, no source has another one, and each source gets its own. -/
structure FreeImages (w : Wallet2) (l : List (ℕ × KeyImage)) : Prop where
  known : ∀ p ∈ l, p.2 ≠ nullKeyImage
  unset : ∀ p ∈ l, ∀ ki, w.images[p.1]? = some ki → ki = nullKeyImage ∨ ki = p.2
  free : ∀ p ∈ l, ∀ i, w.keyImages.get p.2 = some i → i = p.1
  apart : ∀ p ∈ l, ∀ q ∈ l, p.1 = q.1 ↔ p.2 = q.2

section Learn

variable {w w' : Wallet2}

theorem images_setKeyImage {p : ℕ × KeyImage} :
    (w.transfers.modify p.1 fun td => { td with keyImage := p.2 }).map TransferDetails.keyImage =
      w.images.set p.1 p.2 := by
  refine List.ext_getElem? fun j => ?_
  rw [images, List.getElem?_map, List.getElem?_modify, List.getElem?_set, List.length_map,
    List.getElem?_map]
  cases hj : w.transfers[j]? with
  | none =>
    have hlen := List.getElem?_eq_none_iff.mp hj
    simp only [Option.map_eq_map, Option.map_none]
    split_ifs
    · omega
    · rfl
    · rfl
  | some td =>
    have hlen := (List.getElem?_eq_some_iff.mp hj).1
    simp only [Option.map_eq_map, Option.map_some]
    split_ifs
    · rfl
    · omega
    · rfl

theorem setTransferKeyImages_exact {l : List (ℕ × KeyImage)} (hw : KeyImagesExact w)
    (hfree : FreeImages w l) : Leaves KeyImagesExact id (setTransferKeyImages l w) := by
  induction l generalizing w with
  | nil => exact .ok hw
  | cons p l ih =>
    unfold setTransferKeyImages setTransferKeyImage
    split_ifs with hp
    · simp only
      have hmem : p ∈ p :: l := by simp
      have hlen : p.1 < w.images.length := by rwa [images, List.length_map]
      refine ih ?_ ⟨fun q hq => hfree.known q (by simp [hq]), fun q hq ki hki => ?_,
        fun q hq i hi => ?_, fun q hq r hr => hfree.apart q (by simp [hq]) r (by simp [hr])⟩
      · unfold KeyImagesExact images
        rw [images_setKeyImage]
        refine Indexes.set hw (hfree.known p hmem) hlen (fun ki hki => ?_) (hfree.free p hmem)
        rcases hfree.unset p hmem ki hki with rfl | rfl
        · exact Or.inl fun h => h rfl
        · exact Or.inr rfl
      · -- the other sources keep what they had
        rw [images, images_setKeyImage, List.getElem?_set] at hki
        split_ifs at hki with heq
        · rw [Option.some.injEq] at hki
          exact Or.inr (hki.symm.trans ((hfree.apart p hmem q (by simp [hq])).mp heq))
        · exact hfree.unset q (by simp [hq]) ki hki
      · simp only [Map.get_set] at hi
        split_ifs at hi with heq
        · rw [Option.some.injEq] at hi
          exact hi.symm.trans ((hfree.apart p hmem q (by simp [hq])).mpr heq.symm)
        · exact hfree.free q (by simp [hq]) i hi
    · exact .error hw

theorem SameImages.free {l : List (ℕ × KeyImage)} (h : SameImages w w') (hfree : FreeImages w l) :
    FreeImages w' l where
  known := hfree.known
  unset := by
    rw [h.images]
    exact hfree.unset
  free := by
    rw [h.keyImages]
    exact hfree.free
  apart := hfree.apart

theorem addPendingKeyImages_same {l : List (PublicKey × KeyImage)} :
    SameImages w (l.foldl addPendingKeyImage w) := by
  induction l using List.reverseRecOn with
  | nil => exact .refl
  | append_singleton l p ih =>
    rw [List.foldl_append, List.foldl_cons, List.foldl_nil]
    unfold addPendingKeyImage
    split_ifs
    · exact ih
    · exact ⟨ih.keyImages, ih.images, ih.isViewOnly⟩

end Learn

section Finalize

variable {E : WalletEnv} {x : SpendEnv} {arg : CreateTxArg} {res : CreateTxRes} {w : Wallet2}

/-- The checks before a transaction is sent, and what the daemon says to it. -/
def accepted (E : WalletEnv) (x : SpendEnv) (arg : CreateTxArg) (res : CreateTxRes) (w : Wallet2) : Prop :=
  getObjectBlobsize res.tx < CURRENCY_MAX_TRANSACTION_BLOB_SIZE ∧
  w.txKeys.get (getTransactionHash E.toEnv res.tx) = none ∧
  matchesSources arg.sources res.tx.vin = true ∧ x.sendRawTx = (true, .ok) ∧
  (changeImages res.tx res.outsKeyImages).isSome

theorem learnKeyImages_exact (hw : KeyImagesExact w)
    (hfree : w.isViewOnly = true → (changeImages res.tx res.outsKeyImages).isSome →
      ∀ spent, sourceImages arg.sources res.tx.vin = some spent → FreeImages w (spent.map Prod.snd)) :
    Leaves KeyImagesExact id (learnKeyImages arg res w) := by
  unfold learnKeyImages
  split_ifs with hview
  · split
    · next change spent hchange hspent =>
      have hsame := addPendingKeyImages_same (w := w) (l := change ++ spent.map fun p => (p.1, p.2.2))
      exact setTransferKeyImages_exact (hsame.exact hw)
        (hsame.free (hfree hview (by rw [hchange]; rfl) spent hspent))
    · exact .error hw
  · exact .ok hw

theorem finalizeTransaction_exact {doNotRelay : Bool} (hw : KeyImagesExact w)
    (hfree : w.isViewOnly = true → doNotRelay = false ∧ (accepted E x arg res w →
      ∀ spent, sourceImages arg.sources res.tx.vin = some spent → FreeImages w (spent.map Prod.snd))) :
    Leaves KeyImagesExact id (finalizeTransaction E x arg res doNotRelay w) := by
  unfold finalizeTransaction
  split_ifs with hcheck
  · exact .error hw
  · simp only [not_or, Nat.not_le, Option.not_isSome_iff_eq_none, Bool.not_eq_false] at hcheck
    obtain ⟨hsize, hkey, hmatch⟩ := hcheck
    have hrelay : Leaves (SameImages w) id
        (relayTransaction x (spentIndices arg.sources) doNotRelay w) :=
      relayTransaction_same SameImages.refl
    split
    · next hr =>
      rw [hr, leaves_error] at hrelay
      exact .error (hrelay.exact hw)
    · next w₁ hr =>
      rw [hr, leaves_ok] at hrelay
      have hsame : SameImages w (recordSent E x arg res w₁) :=
        ⟨hrelay.keyImages, hrelay.images, hrelay.isViewOnly⟩
      refine learnKeyImages_exact (hsame.exact hw) fun hview hchange spent hspent => ?_
      obtain ⟨rfl, hsent⟩ := hfree (by rw [← hsame.isViewOnly]; exact hview)
      refine hsame.free (hsent ⟨hsize, hkey, hmatch, ?_, hchange⟩ spent hspent)
      -- the daemon took it
      unfold relayTransaction at hr
      simp only [Bool.false_eq_true, if_false] at hr
      split at hr
      · cases hr
      · split_ifs at hr with hok
        exact hok

end Finalize

/-- What a call must not do to the index: detach a transfer whose image is not known, or get a
transaction accepted whose images cannot be entered. -/
def KeepsImages (E : WalletEnv) (w : Wallet2) : WalletCall → Prop
  | .pullBlocks getBlocksFast => ∀ start blocks d,
      getBlocksFast (walletShortChainHistory w.blockchain) = some (start, blocks) →
      splitHeight E.toEnv w.blockchain start blocks = some d → start < d →
      ((blocks[d - start]?).bind (ServedBlock.id? E.toEnv)).isSome → DetachableFrom d w
  | .submitTransfer x (some arg) (some res) => w.isViewOnly = true → accepted E x arg res w →
      ∀ spent, sourceImages arg.sources res.tx.vin = some spent → FreeImages w (spent.map Prod.snd)
  | _ => True

/-- Every call keeps the index where it is made. -/
def ImagesKept (E : WalletEnv) : List WalletCall → Wallet2 → Prop
  | [], _ => True
  | call :: l, w => KeepsImages E w call ∧ ImagesKept E l (WalletCall.run E w call)

section Runs

variable {E : WalletEnv} {w : Wallet2}

theorem run_exact (hw : KeyImagesExact w) {call : WalletCall} (h : KeepsImages E w call) :
    KeyImagesExact (call.run E w) := by
  cases call with
  | pullBlocks getBlocksFast =>
    refine leaves_iff.mp ?_
    unfold pullBlocks
    split
    · exact .error hw
    · next start blocks hcall =>
      split_ifs
      · exact .error hw
      · exact pullBlocksGo_exact hw le_rfl fun d hd hlt hsome => h start blocks d hcall hd hlt hsome
  | transfer x r =>
    change KeyImagesExact (stateLeft Prod.snd (transfer E x r w))
    unfold transfer
    split
    · exact hw
    · split_ifs with hview
      · rw [stateLeft_map]
        exact leaves_iff.mp ((setSpentFlags_same .refl).mono fun _ h => h.exact hw)
      · split
        · exact hw
        · rw [stateLeft_map]
          exact leaves_iff.mp (finalizeTransaction_exact hw fun h => absurd h hview)
  | sweepBelow x r =>
    change KeyImagesExact (stateLeft Prod.snd (sweepBelow E x r w))
    unfold sweepBelow
    split
    · exact hw
    · split_ifs with hview
      · exact hw
      · split
        · exact hw
        · rw [stateLeft_map]
          exact leaves_iff.mp (finalizeTransaction_exact hw fun h => absurd h hview)
  | submitTransfer x arg res =>
    change KeyImagesExact (stateLeft Prod.snd (submitTransfer E x arg res w))
    unfold submitTransfer
    split
    · rw [stateLeft_map]
      exact leaves_iff.mp (finalizeTransaction_exact hw fun hview => ⟨rfl, h hview⟩)
    · exact hw
  | cancelTransfer arg =>
    change KeyImagesExact (stateLeft id (cancelTransfer arg w))
    unfold cancelTransfer
    split
    · exact leaves_iff.mp ((cancelSources_same .refl).mono fun _ h => h.exact hw)
    · exact hw

theorem runWallet_exact {calls : List WalletCall} (hw : KeyImagesExact w) (h : ImagesKept E calls w) :
    KeyImagesExact (runWallet E calls w) := by
  induction calls generalizing w with
  | nil => exact hw
  | cons call l ih => exact ih (run_exact hw h.1) h.2

end Runs

/-- In every wallet that calls reach from a fresh one, each keeping the index, the index is exact, and
detaching at a height completes and keeps it exactly when it takes no transfer without an image. -/
theorem detach_reachable_iff (E : WalletEnv) (w₀ : Wallet2) (hfresh : w₀ = w₀.clear E.toEnv)
    (calls : List WalletCall) (hkept : ImagesKept E calls w₀) :
    KeyImagesExact (runWallet E calls w₀) ∧ ∀ h ≤ (runWallet E calls w₀).blockchain.length,
      (∃ w', detachBlockchain h (runWallet E calls w₀) = .ok w' ∧ KeyImagesExact w') ↔
        DetachableFrom h (runWallet E calls w₀) := by
  have hw₀ : KeyImagesExact w₀ := by
    rw [hfresh]
    exact Indexes.nil
  have hw := runWallet_exact hw₀ hkept
  exact ⟨hw, fun h _ => detachBlockchain_exact_iff hw h⟩

/-- A daemon that takes every transaction. -/
def sampleSpendEnv : SpendEnv where
  now := 0
  getInfo := none
  getRandomOuts := none
  sendRawTx := (true, .ok)
  getAliasesByAddress _ := none
  accountAddressAsStr _ := []
  constructTx _ _ _ := none

/-- The file of an unsigned transaction that spends transfer `0`, received with key `1`. -/
def sampleArg : CreateTxArg where
  spendPubKey := sampleAccount.keys.accountAddress.spendPublicKey
  sources := [⟨[(0, sampleOutKey sampleAccount.keys 1 0)], 0, 1, 0, 5, 0⟩]
  splittedDsts := []
  extra := []
  unlockTime := 0
  txOutsAttr := 0
  changeAmount := 0
  recipients := []
  dust := 0

/-- It comes back signed. -/
def sampleRes : CreateTxRes := ⟨sampleSpend, ⟨9, 0⟩, []⟩

/-- A view-only wallet receives an output and then learns its image. -/
def sampleCalls : List WalletCall :=
  [.pullBlocks (serve sampleWalletEnv.toEnv samplePaid),
    .submitTransfer sampleSpendEnv (some sampleArg) (some sampleRes)]

theorem detach_reachable_iff_sampleCalls :
    ∃ w', detachBlockchain 1 (runWallet sampleWalletEnv sampleCalls (sampleWallet true)) = .ok w' ∧
      KeyImagesExact w' := by
  have hsplit : (serve sampleWalletEnv.toEnv samplePaid
      (walletShortChainHistory (sampleWallet true).blockchain)).bind (fun a =>
        splitHeight sampleWalletEnv.toEnv (sampleWallet true).blockchain a.1 a.2) = none := by
    decide +kernel
  have hspent : sourceImages sampleArg.sources sampleRes.tx.vin =
      some [(sampleOutKey sampleAccount.keys 1 0, 0, sampleImage (sampleOutKey sampleAccount.keys 1 0))] := by
    decide +kernel
  obtain ⟨himages, hfree⟩ : (WalletCall.run sampleWalletEnv (sampleWallet true)
      (.pullBlocks (serve sampleWalletEnv.toEnv samplePaid))).images = [nullKeyImage] ∧
      (WalletCall.run sampleWalletEnv (sampleWallet true)
        (.pullBlocks (serve sampleWalletEnv.toEnv samplePaid))).keyImages.get
          (sampleImage (sampleOutKey sampleAccount.keys 1 0)) = none := by decide +kernel
  have hkept : ImagesKept sampleWalletEnv sampleCalls (sampleWallet true) := by
    refine ⟨fun start blocks d hcall hd => ?_, fun _ _ spent hs => ?_, trivial⟩
    · rw [hcall, Option.bind_some, hd] at hsplit
      cases hsplit
    · obtain rfl := Option.some.inj (hspent.symm.trans hs)
      refine ⟨?_, ?_, ?_, ?_⟩ <;> simp only [List.map_cons, List.map_nil, List.mem_singleton, forall_eq]
      · decide
      · rw [himages]
        simp
      · rw [hfree]
        simp
  obtain ⟨hheight, hfrom⟩ : 1 ≤ (runWallet sampleWalletEnv sampleCalls (sampleWallet true)).blockchain.length ∧
      ∀ td ∈ (runWallet sampleWalletEnv sampleCalls (sampleWallet true)).transfers.drop
        (detachStart 1 (runWallet sampleWalletEnv sampleCalls (sampleWallet true))),
        td.keyImage ≠ nullKeyImage := by
    decide +kernel
  exact ((detach_reachable_iff sampleWalletEnv (sampleWallet true) rfl sampleCalls hkept).2 1 hheight).mpr
    hfrom

/-- Before, it cannot detach the block with the output. -/
theorem detach_throws_unknownImage :
    1 ≤ (runWallet sampleWalletEnv [.pullBlocks (serve sampleWalletEnv.toEnv samplePaid)]
      (sampleWallet true)).blockchain.length ∧
    ¬∃ w', detachBlockchain 1 (runWallet sampleWalletEnv
      [.pullBlocks (serve sampleWalletEnv.toEnv samplePaid)] (sampleWallet true)) = .ok w' := by
  obtain ⟨hheight, h⟩ : 1 ≤ (runWallet sampleWalletEnv
      [.pullBlocks (serve sampleWalletEnv.toEnv samplePaid)] (sampleWallet true)).blockchain.length ∧
      (detachBlockchain 1 (runWallet sampleWalletEnv [.pullBlocks (serve sampleWalletEnv.toEnv samplePaid)]
        (sampleWallet true))).toOption.isNone := by decide +kernel
  refine ⟨hheight, fun ⟨w', hw'⟩ => ?_⟩
  rw [hw'] at h
  cases h

end Wallet2

end Boolberry
