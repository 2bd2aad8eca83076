import Boolberry.TxRefinement

/-!
# The transactions of a block

The two loops of the block code on a represented state: `processTransactions`
appends the transactions of a block one by one, and
`purgeBlockDataFromBlockchain` takes them off again in reverse. What the state
knows of a transaction, in the pool or on the chain, survives both up to the
signatures that are cut under checkpoints.
-/

namespace Boolberry
open KeyValue TxMemoryPool

/-- Two indexes that differ in spent flags, global indexes and signatures only. -/
structure SameTxs (s s' : TxIndex) : Prop where
  outputs : s.outputs = s'.outputs
  spentKeys : s.spentKeys = s'.spentKeys
  transactions : ∀ id,
    (s.transactions.get id).map (fun e => (e.tx.toTransactionPrefix, e.keeperBlockHeight)) =
      (s'.transactions.get id).map fun e => (e.tx.toTransactionPrefix, e.keeperBlockHeight)

theorem sameTxs_indexOf {E : Env} {l : List TxEntry} (h : Linked E l) (F F' : Flags) :
    SameTxs (indexOf F l) (indexOf F' l) := by
  refine ⟨by rw [outputs_indexOf, outputs_indexOf], spentKeys_indexOf_congr F F' l, fun id => ?_⟩
  by_cases hid : id ∈ l.map TxEntry.id
  · obtain ⟨te, hte, rfl⟩ := List.mem_map.mp hid
    obtain ⟨l₁, l₂, rfl⟩ := List.append_of_mem hte
    have hnd := h.nodup_ids
    rw [List.map_append, List.map_cons] at hnd
    have hnot := (List.nodup_cons.mp (List.nodup_append.mp hnd).2.1).1
    rw [transactions_indexOf F l₁ te l₂ hnot, transactions_indexOf F' l₁ te l₂ hnot]
    rfl
  · rw [transactions_indexOf_none F hid, transactions_indexOf_none F' hid]

theorem SameTxs.scanOutputkey {s s' : TxIndex} (h : SameTxs s s') (now height : ℕ)
    (txin : TxinToKey) :
    TxIndex.scanOutputkey s now height txin = TxIndex.scanOutputkey s' now height txin := by
  funext i
  unfold TxIndex.scanOutputkey
  rw [h.outputs]
  cases (s'.outputs txin.amount)[i.toNat]? with
  | none => rfl
  | some out =>
    have ht := h.transactions out.1
    cases hs : s.transactions.get out.1 with
    | none =>
      cases hs' : s'.transactions.get out.1 with
      | none => simp only [hs, hs']
      | some e' => simp [hs, hs'] at ht
    | some e =>
      cases hs' : s'.transactions.get out.1 with
      | none => simp [hs, hs'] at ht
      | some e' =>
        simp only [hs, hs', Option.map_some, Option.some.injEq, Prod.mk.injEq] at ht
        simp only [hs, hs', ht.1, ht.2]

theorem SameTxs.checkTxInputsGo {s s' : TxIndex} (h : SameTxs s s') (E : Env) (now height : ℕ)
    (zone : Bool) (ph : Hash) (vin : List Txin) (sigs : List (List Signature)) (m : ℕ) :
    TxIndex.checkTxInputsGo E s now height zone ph vin sigs m =
      TxIndex.checkTxInputsGo E s' now height zone ph vin sigs m := by
  induction vin generalizing sigs m with
  | nil => rfl
  | cons i l ih =>
    cases i with
    | toKey txin =>
      simp only [TxIndex.checkTxInputsGo, TxIndex.checkTxInput, TxIndex.scanOutputkeysForIndexes,
        h.scanOutputkey, h.outputs, h.spentKeys, ih]
    | gen g => rfl
    | toScript a b c => rfl
    | toScripthash a b c d => rfl

theorem SameTxs.checkTxInputs {s s' : TxIndex} (h : SameTxs s s') (E : Env) (now height : ℕ)
    (zone : Bool) (tx : Transaction) :
    TxIndex.checkTxInputs E s now height zone tx = TxIndex.checkTxInputs E s' now height zone tx :=
  h.checkTxInputsGo ..

theorem scanOutputkeysForIndexes_single {s : TxIndex} {now height : ℕ} {txin : TxinToKey}
    {r : List PublicKey × ℕ} {g : UInt64} (hg : txin.keyOffsets = [g])
    (h : s.scanOutputkeysForIndexes now height txin = some r) :
    g.toNat < (s.outputs txin.amount).length := by
  unfold TxIndex.scanOutputkeysForIndexes at h
  split_ifs at h
  rw [hg] at h
  simp only [relativeOutputOffsetsToAbsolute, relativeOutputOffsetsToAbsolute.go,
    List.mapM_cons, List.mapM_nil] at h
  by_contra hge
  have hnone : (s.outputs txin.amount)[g.toNat]? = none := List.getElem?_eq_none (by omega)
  simp [TxIndex.scanOutputkey, hnone] at h

theorem checkTxInputsGo_cons {E : Env} {s : TxIndex} {now height : ℕ} {zone : Bool} {ph : Hash}
    {txin : TxinToKey} {l : List Txin} {sigs : List (List Signature)} {m r : ℕ} :
    TxIndex.checkTxInputsGo E s now height zone ph (.toKey txin :: l) sigs m = some r ↔
      txin.keyOffsets ≠ [] ∧ s.spentKeys.get txin.kImage = none ∧ (!zone && sigs.isEmpty) = false ∧
        ∃ m', TxIndex.checkTxInput E s now height zone ph txin
          (if zone then [] else sigs.headD []) = some m' ∧
          TxIndex.checkTxInputsGo E s now height zone ph l sigs.tail (max m m') = some r := by
  simp only [TxIndex.checkTxInputsGo]
  generalize (if zone then [] else sigs.headD []) = sig
  by_cases h1 : txin.keyOffsets = []
  · simp [h1]
  cases h2 : s.spentKeys.get txin.kImage with
  | some b => simp [h1]
  | none =>
    cases h3 : !zone && sigs.isEmpty with
    | true => simp [h1]
    | false =>
      cases TxIndex.checkTxInput E s now height zone ph txin sig <;> simp [h1]

theorem checkTxInputsGo_some {E : Env} {s : TxIndex} {now height : ℕ} {zone : Bool} {ph : Hash}
    {vin : List Txin} {sigs : List (List Signature)} {m r : ℕ}
    (h : TxIndex.checkTxInputsGo E s now height zone ph vin sigs m = some r) :
    (∀ i ∈ vin, Resolves s.outputs i) ∧ ∀ k ∈ kimagesOfVin vin, s.spentKeys.get k = none := by
  induction vin generalizing sigs m with
  | nil => simp [kimagesOfVin]
  | cons i l ih =>
    cases i with
    | toKey txin =>
      obtain ⟨-, hkey, -, m', hc, hgo⟩ := checkTxInputsGo_cons.mp h
      obtain ⟨hres, hkeys⟩ := ih hgo
      refine ⟨fun j hj => ?_, fun k hk => ?_⟩
      · rcases List.mem_cons.mp hj with rfl | hj
        · intro g hg
          unfold TxIndex.checkTxInput at hc
          cases hscan : s.scanOutputkeysForIndexes now height txin with
          | none => simp [hscan] at hc
          | some r' => exact scanOutputkeysForIndexes_single hg hscan
        · exact hres j hj
      · rcases List.mem_cons.mp (show k ∈ txin.kImage :: kimagesOfVin l from hk) with rfl | hk
        · exact hkey
        · exact hkeys k hk
    | gen g => simp [TxIndex.checkTxInputsGo] at h
    | toScript a b c => simp [TxIndex.checkTxInputsGo] at h
    | toScripthash a b c d => simp [TxIndex.checkTxInputsGo] at h

/-- A transaction of the pool whose inputs were checked has its inputs in order. -/
theorem inputsOK_of_checkTxInputs {E : Env} {F : Flags} {l : List TxEntry} {now height : ℕ}
    {zone : Bool} {tx : Transaction} (hs : Semantic E tx)
    (h : (TxIndex.checkTxInputs E (indexOf F l) now height zone tx).isSome = true) :
    InputsOK l tx := by
  obtain ⟨r, hr⟩ := Option.isSome_iff_exists.mp h
  obtain ⟨hres, hkeys⟩ := checkTxInputsGo_some hr
  rw [outputs_indexOf] at hres
  refine ⟨hres, hs.nodup, fun k hk hmem => ?_⟩
  have := hkeys k hk
  rw [spentKeys_indexOf, if_pos hmem] at this
  simp at this

theorem isTxSpendtimeUnlocked_mono {now now' height : ℕ} {unlockTime : UInt64} (hle : now ≤ now')
    (h : isTxSpendtimeUnlocked now height unlockTime = true) :
    isTxSpendtimeUnlocked now' height unlockTime = true := by
  unfold isTxSpendtimeUnlocked at h ⊢
  split_ifs at h ⊢ with hb
  · exact h
  · simp only [decide_eq_true_eq] at h ⊢
    omega

theorem scanOutputkey_mono {s : TxIndex} {now now' height : ℕ} {txin : TxinToKey} {i : UInt64}
    {r : PublicKey × ℕ} (hle : now ≤ now') (h : s.scanOutputkey now height txin i = some r) :
    s.scanOutputkey now' height txin i = some r := by
  unfold TxIndex.scanOutputkey at h ⊢
  cases ho : (s.outputs txin.amount)[i.toNat]? with
  | none => simp [ho] at h
  | some out =>
    simp only [ho] at h ⊢
    cases ht : s.transactions.get out.1 with
    | none => simp [ht] at h
    | some tce =>
      simp only [ht] at h ⊢
      cases hv : tce.tx.vout[out.2]? with
      | none => simp [hv] at h
      | some ot =>
        simp only [hv] at h ⊢
        cases hk : ot.target with
        | toKey outtk =>
          simp only [hk] at h ⊢
          by_cases hu : isTxSpendtimeUnlocked now height tce.tx.unlockTime = true
          · simpa only [hu, isTxSpendtimeUnlocked_mono hle hu] using h
          · simp [hu] at h
        | toScript t => simp [hk] at h
        | toScripthash t => simp [hk] at h

theorem mapM_some_mono {α β : Type} {f g : α → Option β} (h : ∀ a b, f a = some b → g a = some b)
    {l : List α} {r : List β} (hl : l.mapM f = some r) : l.mapM g = some r := by
  induction l generalizing r with
  | nil => simpa using hl
  | cons a l ih =>
    simp only [List.mapM_cons, Option.bind_eq_bind, Option.pure_def, Option.bind_eq_some_iff] at hl ⊢
    obtain ⟨b, hb, r', hr', he⟩ := hl
    exact ⟨b, h a b hb, r', ih hr', he⟩

theorem checkTxInputsGo_mono {E : Env} {s : TxIndex} {now now' height : ℕ} {zone : Bool} {ph : Hash}
    {vin : List Txin} {sigs : List (List Signature)} {m r : ℕ} (hle : now ≤ now')
    (h : TxIndex.checkTxInputsGo E s now height zone ph vin sigs m = some r) :
    TxIndex.checkTxInputsGo E s now' height zone ph vin sigs m = some r := by
  induction vin generalizing sigs m with
  | nil => exact h
  | cons i l ih =>
    cases i with
    | toKey txin =>
      obtain ⟨h1, h2, h3, m', hc, hgo⟩ := checkTxInputsGo_cons.mp h
      have hscan : ∀ r, s.scanOutputkeysForIndexes now height txin = some r →
          s.scanOutputkeysForIndexes now' height txin = some r := by
        intro r hr
        unfold TxIndex.scanOutputkeysForIndexes at hr ⊢
        split_ifs at hr ⊢ with h0
        simp only [Option.map_eq_some_iff] at hr ⊢
        obtain ⟨r', hr', he⟩ := hr
        exact ⟨r', mapM_some_mono (fun a b hab => scanOutputkey_mono hle hab) hr', he⟩
      have hinput : ∀ sig r, TxIndex.checkTxInput E s now height zone ph txin sig = some r →
          TxIndex.checkTxInput E s now' height zone ph txin sig = some r := by
        intro sig r hr
        unfold TxIndex.checkTxInput at hr ⊢
        cases hs : s.scanOutputkeysForIndexes now height txin with
        | none => simp [hs] at hr
        | some q =>
          rw [hs] at hr
          rw [hscan q hs]
          exact hr
      exact checkTxInputsGo_cons.mpr ⟨h1, h2, h3, m', hinput _ _ hc, ih hgo⟩
    | gen g => simp [TxIndex.checkTxInputsGo] at h
    | toScript a b c => simp [TxIndex.checkTxInputsGo] at h
    | toScripthash a b c d => simp [TxIndex.checkTxInputsGo] at h

theorem checkTxInputs_mono {E : Env} {s : TxIndex} {now now' height : ℕ} {zone : Bool}
    {tx : Transaction} (hle : now ≤ now')
    (h : (TxIndex.checkTxInputs E s now height zone tx).isSome = true) :
    (TxIndex.checkTxInputs E s now' height zone tx).isSome = true := by
  obtain ⟨r, hr⟩ := Option.isSome_iff_exists.mp h
  exact Option.isSome_iff_exists.mpr ⟨r, checkTxInputsGo_mono hle hr⟩

/-- The transaction without its signatures. -/
def cutSignatures (tx : Transaction) : Transaction := { tx with signatures := [] }

/-- What a block under `zone` keeps of a pool transaction. -/
def cutIn (zone : Bool) (tx : Transaction) : Transaction := if zone then cutSignatures tx else tx

theorem Semantic.cutIn {E : Env} {tx : Transaction} (h : Semantic E tx) (zone : Bool) :
    Semantic E (cutIn zone tx) := by
  cases zone with
  | false => exact h
  | true => exact ⟨h.vin_ne_nil, h.types, h.outs, h.overflow, h.amounts, h.nodup, h.extra⟩

theorem getTransactionHash_cutIn (E : Env) (zone : Bool) (tx : Transaction) :
    getTransactionHash E (cutIn zone tx) = getTransactionHash E tx := by
  cases zone <;> rfl

theorem cutIn_cutIn (zone : Bool) (tx : Transaction) : cutIn zone (cutIn zone tx) = cutIn zone tx := by
  cases zone <;> rfl

theorem Semantic.not_coinbase {E : Env} {tx : Transaction} (h : Semantic E tx) :
    isCoinbase tx = false := by
  have hvin := h.vin_eq
  unfold isCoinbase
  cases hk : toKeyInputs tx with
  | nil =>
    rw [hk] at hvin
    exact absurd hvin h.vin_ne_nil
  | cons i l => rw [hvin, hk]; rfl

/-- The transaction known under an id: in the pool, or on the chain and not a coinbase. -/
def knownIn (l : List TxEntry) (p : TxMemoryPool) (id : Hash) : Option Transaction :=
  match p.transactions.get id with
  | some d => some d.tx
  | none => (l.find? fun te => te.id == id && !isCoinbase te.tx).map TxEntry.tx

/-- The same known transactions, but for signatures cut from those named in `ids`. -/
def Recalls (zone : Bool) (ids : List Hash) (f f' : Hash → Option Transaction) : Prop :=
  ∀ id, f' id = f id ∨ (id ∈ ids ∧ f' id = (f id).map (cutIn zone))

theorem Recalls.refl (zone : Bool) (ids : List Hash) (f : Hash → Option Transaction) :
    Recalls zone ids f f := fun _ => Or.inl rfl

theorem Recalls.trans {zone : Bool} {ids ids' : List Hash} {f f' f'' : Hash → Option Transaction}
    (h : Recalls zone ids f f') (h' : Recalls zone ids' f' f'') :
    Recalls zone (ids ++ ids') f f'' := by
  intro id
  rcases h' id with h2 | ⟨hm2, h2⟩ <;> rcases h id with h1 | ⟨hm1, h1⟩
  · exact Or.inl (h2.trans h1)
  · exact Or.inr ⟨by simp [hm1], h2.trans h1⟩
  · exact Or.inr ⟨by simp [hm2], by rw [h2, h1]⟩
  · refine Or.inr ⟨by simp [hm1], ?_⟩
    rw [h2, h1, Option.map_map]
    congr 1
    funext tx
    exact cutIn_cutIn zone tx

theorem Recalls.mono {zone : Bool} {ids ids' : List Hash} {f f' : Hash → Option Transaction}
    (h : Recalls zone ids f f') (hsub : ids ⊆ ids') : Recalls zone ids' f f' :=
  fun id => (h id).imp_right fun ⟨hm, he⟩ => ⟨hsub hm, he⟩

theorem Recalls.of_update {zone : Bool} {id : Hash} {tx : Transaction}
    {f f' : Hash → Option Transaction} (hf : f id = some tx)
    (h : f' = Function.update f id (some (cutIn zone tx))) : Recalls zone [id] f f' := by
  intro id'
  rw [h, Function.update_apply]
  split_ifs with he
  · rw [he, hf]
    exact Or.inr ⟨by simp, rfl⟩
  · exact Or.inl rfl

/-- Moving a transaction between the end of the chain and the pool does not change what is known. -/
theorem knownIn_append {l : List TxEntry} {te : TxEntry} {p p' : TxMemoryPool} {d : TxDetails}
    (hid : te.id ∉ l.map TxEntry.id) (hc : isCoinbase te.tx = false)
    (hp : p.transactions.get te.id = none) (hp' : p'.transactions = p.transactions.set te.id d)
    (hd : d.tx = te.tx) : knownIn l p' = knownIn (l ++ [te]) p := by
  funext id
  unfold knownIn
  rw [hp', Map.get_set, List.find?_append]
  split_ifs with h
  · have hnone : (l.find? fun t => t.id == id && !isCoinbase t.tx) = none := by
      rw [List.find?_eq_none]
      intro t ht
      have hne : t.id ≠ id := fun he => hid (h ▸ he ▸ List.mem_map_of_mem ht)
      simp [hne]
    rw [h] at hnone ⊢
    simp [hp, hnone, hc, hd]
  · have hne : te.id ≠ id := Ne.symm h
    simp [hne]

theorem knownIn_append_coinbase {l : List TxEntry} {te : TxEntry} (p : TxMemoryPool)
    (hc : isCoinbase te.tx = true) : knownIn (l ++ [te]) p = knownIn l p := by
  funext id
  unfold knownIn
  rw [List.find?_append]
  simp [hc]

/-- The outputs that transactions `es` refer to by a single offset, each behind the ones before. -/
def blockRefs : List TxEntry → List TxEntry → List (Hash × ℕ)
  | _, [] => []
  | l, te :: es => refsOf l te.tx ++ blockRefs (l ++ [te]) es

theorem blockRefs_append (l es es' : List TxEntry) :
    blockRefs l (es ++ es') = blockRefs l es ++ blockRefs (l ++ es) es' := by
  induction es generalizing l with
  | nil => simp [blockRefs]
  | cons te es ih => simp [blockRefs, ih]

theorem Flags.mark_comm (F : Flags) (r r' : List (Hash × ℕ)) (v : Bool) :
    F.mark (r ++ r') v = F.mark (r' ++ r) v := by
  funext id n
  simp only [Flags.mark, List.mem_append, or_comm]

theorem foldl_purgeStep {l : List TxEntry} (v : ChainView) (es : List TxEntry) {F : Flags}
    {s : TxState} (hrep : TxRep v.env F (l ++ es) s) :
    ∃ s', ((es.map TxEntry.id).reverse).foldl (purgeStep v) (true, s) = (true, s') ∧
      TxRep v.env (F.mark (blockRefs l es) false) l s' ∧
      knownIn l s'.pool = knownIn (l ++ es) s.pool := by
  induction es using List.reverseRecOn generalizing F s with
  | nil =>
    refine ⟨s, rfl, ?_, by simp⟩
    rw [blockRefs, Flags.mark_nil]
    simpa using hrep
  | append_singleton es te ih =>
    rw [← List.append_assoc] at hrep
    have ha := hrep.linked.of_append_singleton.2
    obtain ⟨s₁, hpurge, hrep₁, hpc, hpn⟩ := purgeTransactionFromBlockchain_spec v hrep
    obtain ⟨s₂, hfold, hrep₂, hknown⟩ := ih hrep₁
    refine ⟨s₂, ?_, ?_, ?_⟩
    · rw [List.map_append, List.reverse_append]
      simp only [List.map_cons, List.map_nil, List.reverse_singleton, List.singleton_append,
        List.foldl_cons, purgeStep, hpurge]
      exact hfold
    · rw [Flags.mark_append, Flags.mark_comm] at hrep₂
      rw [blockRefs_append]
      simpa [blockRefs] using hrep₂
    · rw [hknown, ← List.append_assoc]
      cases hc : isCoinbase te.tx with
      | true => rw [hpc hc, knownIn_append_coinbase _ hc]
      | false =>
        obtain ⟨d, hset, hd⟩ := hpn hc
        exact knownIn_append ha.id_notMem hc (hrep.disjoint te (by simp) hc) hset hd

/-- The transactions of a block behind its coinbase, each checked behind the ones before it. -/
def TxsOK (E : Env) (t h : ℕ) (zone : Bool) : List TxEntry → List TxEntry → Prop
  | _, [] => True
  | l, te :: es =>
      Addable E l te ∧ Semantic E te.tx ∧ te.height = h ∧ cutIn zone te.tx = te.tx ∧
        (TxIndex.checkTxInputs E (indexOf (fun _ _ => false) l) t h zone te.tx).isSome = true ∧
        TxsOK E t h zone (l ++ [te]) es

theorem TxsOK.id_notMem {E : Env} {t h : ℕ} {zone : Bool} {l es : List TxEntry}
    (hok : TxsOK E t h zone l es) : ∀ te ∈ es, te.id ∉ l.map TxEntry.id := by
  induction es generalizing l with
  | nil => simp
  | cons x es ih =>
    obtain ⟨hx, -, -, -, -, hr⟩ := hok
    intro te hte
    rcases List.mem_cons.mp hte with rfl | hte
    · exact hx.id_notMem
    · exact fun hmem => ih hr te hte (by simp [hmem])

theorem TxsOK.height {E : Env} {t h : ℕ} {zone : Bool} {l es : List TxEntry}
    (hok : TxsOK E t h zone l es) : ∀ te ∈ es, te.height = h := by
  induction es generalizing l with
  | nil => simp
  | cons x es ih =>
    obtain ⟨-, -, hx, -, -, hr⟩ := hok
    intro te hte
    rcases List.mem_cons.mp hte with rfl | hte
    · exact hx
    · exact ih hr te hte

theorem TxsOK.not_coinbase {E : Env} {t h : ℕ} {zone : Bool} {l es : List TxEntry}
    (hok : TxsOK E t h zone l es) : ∀ te ∈ es, isCoinbase te.tx = false := by
  induction es generalizing l with
  | nil => simp
  | cons x es ih =>
    obtain ⟨-, hx, -, -, -, hr⟩ := hok
    intro te hte
    rcases List.mem_cons.mp hte with rfl | hte
    · exact hx.not_coinbase
    · exact ih hr te hte

theorem TxsOK.cutIn {E : Env} {t h : ℕ} {zone : Bool} {l es : List TxEntry}
    (hok : TxsOK E t h zone l es) : ∀ te ∈ es, Boolberry.cutIn zone te.tx = te.tx := by
  induction es generalizing l with
  | nil => simp
  | cons x es ih =>
    obtain ⟨-, -, -, hx, -, hr⟩ := hok
    intro te hte
    rcases List.mem_cons.mp hte with rfl | hte
    · exact hx
    · exact ih hr te hte

theorem TxsOK.linked {E : Env} {t h : ℕ} {zone : Bool} {l es : List TxEntry}
    (hok : TxsOK E t h zone l es) (hl : Linked E l) : Linked E (l ++ es) := by
  induction es generalizing l with
  | nil => simpa using hl
  | cons x es ih =>
    obtain ⟨hx, -, -, -, -, hr⟩ := hok
    rw [List.append_cons]
    exact ih hr (.snoc hl hx)

theorem TxsOK.of_append {E : Env} {t h : ℕ} {zone : Bool} {l es es' : List TxEntry}
    (hok : TxsOK E t h zone l (es ++ es')) :
    TxsOK E t h zone l es ∧ TxsOK E t h zone (l ++ es) es' := by
  induction es generalizing l with
  | nil => exact ⟨trivial, by simpa using hok⟩
  | cons x es ih =>
    obtain ⟨h1, h2, h3, h4, h5, h6⟩ := hok
    obtain ⟨h7, h8⟩ := ih h6
    rw [List.append_cons]
    exact ⟨⟨h1, h2, h3, h4, h5, h7⟩, h8⟩

theorem TxsOK.mono {E : Env} {t t' h : ℕ} {zone : Bool} {l es : List TxEntry} (hle : t ≤ t')
    (hok : TxsOK E t h zone l es) : TxsOK E t' h zone l es := by
  induction es generalizing l with
  | nil => trivial
  | cons x es ih =>
    obtain ⟨h1, h2, h3, h4, h5, h6⟩ := hok
    exact ⟨h1, h2, h3, h4, checkTxInputs_mono hle h5, ih h6⟩

/-- The flags after a run of transactions was added behind `l`. -/
def flagsAfter : Flags → List TxEntry → List TxEntry → Flags
  | F, _, [] => F
  | F, l, te :: es => flagsAfter (addFlags F l te) (l ++ [te]) es

/-- The fee of a transaction, as `add_tx` computes it. -/
def feeOf (tx : Transaction) : UInt64 := (getInputsMoneyAmount tx).getD 0 - getOutsMoneyAmount tx

theorem feeOf_cutIn (zone : Bool) (tx : Transaction) : feeOf (cutIn zone tx) = feeOf tx := by
  cases zone <;> rfl

theorem getObjectBlobsize_cutIn (zone : Bool) (tx : Transaction) :
    getObjectBlobsize (cutIn zone tx) = getObjectBlobsize tx := by
  cases zone <;> rfl

def feesOf (es : List TxEntry) (fee : UInt64) : UInt64 :=
  es.foldl (fun fee te => fee + feeOf te.tx) fee

def sizesOf (es : List TxEntry) (size : ℕ) : ℕ :=
  es.foldl (fun size te => size + getObjectBlobsize te.tx) size

/-- The three ways a round of the transaction loop can go, once the pool had the transaction. -/
theorem processTransactions_step {F : Flags} {l : List TxEntry} (v : ChainView) {s : TxState}
    {id : Hash} {d : TxDetails} (hrep : TxRep v.env F l s)
    (hd : s.pool.transactions.get id = some d) :
    let s₀ : TxState := { s with pool := eraseTx v.env s.pool id d }
    let te : TxEntry := ⟨id, cutIn v.zone d.tx, v.blocks.length⟩
    let check := TxIndex.checkTxInputs v.env s₀.index v.now v.blocks.length v.zone te.tx
    check = TxIndex.checkTxInputs v.env (indexOf (fun _ _ => false) l) v.now v.blocks.length
      v.zone te.tx ∧ Semantic v.env te.tx ∧
    ((check.isSome = true ∧ Addable v.env l te ∧
        ∃ s', addTransactionFromBlock v.env s₀ te.tx id v.blocks.length = .ok s' ∧
          s'.pool = s₀.pool ∧ TxRep v.env (addFlags F l te) (l ++ [te]) s' ∧
          knownIn (l ++ [te]) s'.pool = Function.update (knownIn l s.pool) id (some te.tx)) ∨
      (check = none ∧ TxRep v.env F l (v.returnTx s₀ te.tx).2 ∧
        knownIn l (v.returnTx s₀ te.tx).2.pool =
          Function.update (knownIn l s.pool) id (some te.tx)) ∨
      (check.isSome = true ∧ ¬Addable v.env l te ∧
        ∃ s' R, (R = [] ∨ R = refsOf l te.tx) ∧
          addTransactionFromBlock v.env s₀ te.tx id v.blocks.length = .error s' ∧
          TxRep v.env (F.mark R false) l (v.returnTx s' te.tx).2 ∧
          knownIn l (v.returnTx s' te.tx).2.pool =
            Function.update (knownIn l s.pool) id (some te.tx))) := by
  intro s₀ te check
  have he := hrep.pool.entry id d hd
  have hsem : Semantic v.env te.tx := he.semantic.cutIn v.zone
  have hc : isCoinbase te.tx = false := hsem.not_coinbase
  have hhash : getTransactionHash v.env te.tx = te.id := by
    rw [getTransactionHash_cutIn]
    exact he.hash
  have hnone : s₀.pool.transactions.get id = none := Map.get_erase_self _ _
  have hrep₀ : TxRep v.env F l s₀ := by
    refine ⟨hrep.index, hrep.aliases, eraseTx_spec hrep.pool hd, fun te' hte' hc' => ?_, hrep.linked⟩
    simp only [s₀, eraseTx, Map.get_erase]
    split_ifs
    · rfl
    · exact hrep.disjoint te' hte' hc'
  have hcheck : check = TxIndex.checkTxInputs v.env (indexOf (fun _ _ => false) l) v.now
      v.blocks.length v.zone te.tx := by
    simp only [check, hrep₀.index]
    exact (sameTxs_indexOf hrep.linked _ _).checkTxInputs ..
  -- the pool as a function, before and after
  have hpool : ∀ id', id' ≠ id → s₀.pool.transactions.get id' = s.pool.transactions.get id' :=
    fun id' hne => Map.get_erase_of_ne _ hne
  have hback : ∀ s' : TxState, s'.pool = s₀.pool → TxRep v.env F l s₀ →
      ∃ p' d', (v.returnTx s' te.tx).2 = { s' with pool := p' } ∧
        p'.transactions = s₀.pool.transactions.set id d' ∧ d'.tx = te.tx ∧ PoolOK v.env p' := by
    intro s' hs' h₀
    obtain ⟨tvc', p', d', hadd, hset, hd', -, hp'⟩ := addTx_kept v.now (v.checkTxInputs s'.index) {}
      h₀.pool hsem (by rw [hhash]; exact hnone)
    refine ⟨p', d', ?_, by rw [hset, hhash], hd', hp'⟩
    simp only [ChainView.returnTx, hs', hadd]
  have hrecall : ∀ p' : TxMemoryPool, ∀ d' : TxDetails,
      p'.transactions = s₀.pool.transactions.set id d' → d'.tx = te.tx →
      knownIn l p' = Function.update (knownIn l s.pool) id (some te.tx) := by
    intro p' d' hset hd'
    funext id'
    rw [Function.update_apply]
    unfold knownIn
    rw [hset, Map.get_set]
    split_ifs with h
    · exact congrArg some hd'
    · rw [hpool id' h]
  have hdisj : ∀ p' : TxMemoryPool, ∀ d' : TxDetails,
      p'.transactions = s₀.pool.transactions.set id d' → ∀ te' ∈ l, isCoinbase te'.tx = false →
      p'.transactions.get te'.id = none := by
    intro p' d' hset te' hte' hc'
    have hne : te'.id ≠ id := fun h => by
      have := hrep.disjoint te' hte' hc'
      rw [h, hd] at this
      simp at this
    rw [hset, Map.get_set_of_ne _ _ hne]
    exact hrep₀.disjoint te' hte' hc'
  refine ⟨hcheck, hsem, ?_⟩
  cases hck : check with
  | none =>
    right; left
    obtain ⟨p', d', hret, hset, hd', hp'⟩ := hback s₀ rfl hrep₀
    rw [hret]
    exact ⟨rfl, ⟨hrep₀.index, hrep₀.aliases, hp', hdisj p' d' hset, hrep.linked⟩,
      hrecall p' d' hset hd'⟩
  | some m =>
    have hin : InputsOK l te.tx := inputsOK_of_checkTxInputs hsem (by rw [← hcheck, hck]; rfl)
    rcases addTransactionFromBlock_spec te hrep₀ hin hhash (fun _ => hsem) (fun _ => hnone)
      with ⟨ha, s', hadd, hp, hrep'⟩ | ⟨hna, s', R, hR, hadd, hp, hrep'⟩
    · refine Or.inl ⟨rfl, ha, s', hadd, hp, hrep', ?_⟩
      funext id'
      rw [Function.update_apply]
      unfold knownIn
      rw [hp, List.find?_append]
      split_ifs with h
      · have hnotl : (l.find? fun t => t.id == id' && !isCoinbase t.tx) = none := by
          rw [List.find?_eq_none]
          intro t ht
          have hne : t.id ≠ id' := fun hte => by
            have hid : te.id = t.id := (hte.trans h).symm
            exact ha.id_notMem (hid ▸ List.mem_map_of_mem ht)
          simp [hne]
        rw [hnotl, h, hnone]
        simp [hc, te]
      · have hne : te.id ≠ id' := Ne.symm h
        rw [hpool id' h]
        simp [hne]
    · right; right
      obtain ⟨p', d', hret, hset, hd', hp'⟩ := hback s' hp hrep₀
      refine ⟨rfl, hna, s', R, hR, hadd, ?_⟩
      rw [hret]
      exact ⟨⟨hrep'.index, hrep'.aliases, hp', hdisj p' d' hset, hrep.linked⟩,
        hrecall p' d' hset hd'⟩

theorem flagsAfter_of_mem {E : Env} {F : Flags} {l es : List TxEntry} {te : TxEntry} (n : ℕ)
    (hl : Linked E (l ++ es)) (hte : te ∈ l) :
    flagsAfter F l es te.id n = F.mark (blockRefs l es) true te.id n := by
  induction es generalizing F l with
  | nil => simp [flagsAfter, blockRefs, Flags.mark]
  | cons te₀ es ih =>
    have hne : te.id ≠ te₀.id := fun he => hl.addable.id_notMem (he ▸ List.mem_map_of_mem hte)
    rw [List.append_cons] at hl
    rw [flagsAfter, ih hl (by simp [hte]), blockRefs, ← Flags.mark_append]
    by_cases hm : (te.id, n) ∈ blockRefs (l ++ [te₀]) es <;> simp [Flags.mark, hm, addFlags, hne]

theorem TxRep.congr {E : Env} {F F' : Flags} {l : List TxEntry} {s : TxState}
    (h : TxRep E F l s) (hF : ∀ te ∈ l, ∀ n, F te.id n = F' te.id n) : TxRep E F' l s := by
  refine ⟨h.index.trans (indexOf_congr fun te hte => ?_), h.aliases, h.pool, h.disjoint, h.linked⟩
  simp only [flagsOf]
  congr 1
  funext n
  exact hF te hte n

/-- `es` are the first transactions of a block with ids `ids`, as `known` has them. -/
structure Fetched (known : Hash → Option Transaction) (zone : Bool) (h : ℕ) (ids : List Hash)
    (es : List TxEntry) : Prop where
  ids_prefix : es.map TxEntry.id <+: ids
  known : ∀ te ∈ es, te.height = h ∧ ∃ tx, known te.id = some tx ∧ te.tx = cutIn zone tx

theorem Fetched.nil (known : Hash → Option Transaction) (zone : Bool) (h : ℕ) (ids : List Hash) :
    Fetched known zone h ids [] := ⟨List.nil_prefix, by simp⟩

theorem Fetched.cons {known known' : Hash → Option Transaction} {zone : Bool} {h : ℕ}
    {ids : List Hash} {es : List TxEntry} (te : TxEntry) (hh : te.height = h)
    (hknown : ∃ tx, known te.id = some tx ∧ te.tx = cutIn zone tx)
    (hrec : Recalls zone [te.id] known known') (hes : Fetched known' zone h ids es) :
    Fetched known zone h (te.id :: ids) (te :: es) := by
  refine ⟨by simpa using hes.ids_prefix, fun te' hte' => ?_⟩
  rcases List.mem_cons.mp hte' with rfl | hte'
  · exact ⟨hh, hknown⟩
  · obtain ⟨hh', tx, htx, heq⟩ := hes.known te' hte'
    refine ⟨hh', ?_⟩
    rcases hrec te'.id with hr | ⟨-, hr⟩
    · exact ⟨tx, by rw [← hr, htx], heq⟩
    · rw [htx] at hr
      obtain ⟨tx₀, htx₀, hcut⟩ := Option.map_eq_some_iff.mp hr.symm
      exact ⟨tx₀, htx₀, by rw [heq, ← hcut, cutIn_cutIn]⟩

/-- `es` are transactions of a block that can be added behind `l`, but for the last one perhaps, of
which only the inputs were found in order. -/
def Tried (E : Env) (t h : ℕ) (zone : Bool) (l es : List TxEntry) : Prop :=
  TxsOK E t h zone l es ∨ ∃ es₀ te, es = es₀ ++ [te] ∧ TxsOK E t h zone l es₀ ∧
    (TxIndex.checkTxInputs E (indexOf (fun _ _ => false) (l ++ es₀)) t h zone te.tx).isSome = true

theorem Tried.cons {E : Env} {t h : ℕ} {zone : Bool} {l es : List TxEntry} {te : TxEntry}
    (hok : TxsOK E t h zone l [te]) (hes : Tried E t h zone (l ++ [te]) es) :
    Tried E t h zone l (te :: es) := by
  obtain ⟨h1, h2, h3, h4, h5, -⟩ := hok
  rcases hes with hes | ⟨es₀, te', rfl, hes₀, hck⟩
  · exact Or.inl ⟨h1, h2, h3, h4, h5, hes⟩
  · refine Or.inr ⟨te :: es₀, te', rfl, ⟨h1, h2, h3, h4, h5, hes₀⟩, ?_⟩
    rw [List.append_cons]
    exact hck

theorem Tried.mono {E : Env} {t t' h : ℕ} {zone : Bool} {l es : List TxEntry} (hle : t ≤ t')
    (hes : Tried E t h zone l es) : Tried E t' h zone l es := by
  rcases hes with hes | ⟨es₀, te, rfl, hes₀, hck⟩
  · exact Or.inl (hes.mono hle)
  · exact Or.inr ⟨es₀, te, rfl, hes₀.mono hle, checkTxInputs_mono hle hck⟩

/-- The transaction loop takes `id` from the pool `p`: the transactions before it in the block are in
the pool and pass all checks behind `l`. -/
def Taken (E : Env) (t h : ℕ) (zone : Bool) (p : TxMemoryPool) (l : List TxEntry) (ids : List Hash)
    (id : Hash) : Prop :=
  ∃ es, es.map TxEntry.id ++ [id] <+: ids ∧ TxsOK E t h zone l es ∧
    ∀ te ∈ es, ∃ d, p.transactions.get te.id = some d ∧ te.tx = cutIn zone d.tx

theorem Taken.head (E : Env) (t h : ℕ) (zone : Bool) (p : TxMemoryPool) (l : List TxEntry)
    (ids : List Hash) (id : Hash) : Taken E t h zone p l (id :: ids) id :=
  ⟨[], by simp, trivial, by simp⟩

theorem taken_cons {E : Env} {t h : ℕ} {zone : Bool} {p p' : TxMemoryPool} {l : List TxEntry}
    {ids : List Hash} {id x : Hash} (hne : id ≠ x)
    (hp : ∀ id', id' ≠ x → p'.transactions.get id' = p.transactions.get id') :
    Taken E t h zone p l (x :: ids) id ↔ ∃ d, p.transactions.get x = some d ∧
      TxsOK E t h zone l [⟨x, cutIn zone d.tx, h⟩] ∧
      Taken E t h zone p' (l ++ [⟨x, cutIn zone d.tx, h⟩]) ids id := by
  constructor
  · rintro ⟨es, hids, hok, hpool⟩
    cases es with
    | nil => exact absurd (by simpa using hids) hne
    | cons te es =>
      obtain ⟨rfl, hids'⟩ : te.id = x ∧ es.map TxEntry.id ++ [id] <+: ids := by
        simpa using hids
      obtain ⟨h1, h2, rfl, h4, h5, hok⟩ := hok
      obtain ⟨d, hd, htx⟩ := hpool te (by simp)
      have hte : te = ⟨te.id, cutIn zone d.tx, te.height⟩ := by rw [← htx]
      refine ⟨d, hd, ?_, es, hids', ?_, fun te' hte' => ?_⟩
      · rw [← hte]
        exact ⟨h1, h2, rfl, h4, h5, trivial⟩
      · rw [← hte]
        exact hok
      · obtain ⟨d', hd', htx'⟩ := hpool te' (by simp [hte'])
        have hid := hok.id_notMem te' hte'
        exact ⟨d', by rw [hp _ fun he => hid (by simp [he]), hd'], htx'⟩
  · rintro ⟨d, hd, ⟨h1, h2, h3, h4, h5, -⟩, es, hids, hok, hpool⟩
    refine ⟨⟨x, cutIn zone d.tx, h⟩ :: es, by simpa using hids, ⟨h1, h2, h3, h4, h5, hok⟩,
      fun te hte => ?_⟩
    rcases List.mem_cons.mp hte with rfl | hte
    · exact ⟨d, hd, rfl⟩
    · obtain ⟨d', hd', htx'⟩ := hpool te hte
      have hid := hok.id_notMem te hte
      exact ⟨d', by rw [← hp _ fun he => hid (by simp [he]), hd'], htx'⟩

/-- Of the transactions of the pool, those the loop takes have lost their signatures in the zone, and
the others are as they were. -/
def CutsTaken (E : Env) (t h : ℕ) (zone : Bool) (p : TxMemoryPool) (l : List TxEntry)
    (ids : List Hash) (known : Hash → Option Transaction) : Prop :=
  ∀ id d, p.transactions.get id = some d →
    (Taken E t h zone p l ids id ∧ known id = some (cutIn zone d.tx)) ∨
    (¬Taken E t h zone p l ids id ∧ known id = some d.tx)

theorem CutsTaken.nil (E : Env) (t h : ℕ) (zone : Bool) (p : TxMemoryPool) (l : List TxEntry) :
    CutsTaken E t h zone p l [] (knownIn l p) :=
  fun _ _ hd => Or.inr ⟨fun ⟨_, hids, _⟩ => by simp at hids, by simp [knownIn, hd]⟩

theorem CutsTaken.stop {E : Env} {t h : ℕ} {zone : Bool} {p : TxMemoryPool} {l : List TxEntry}
    {ids : List Hash} {x : Hash} {d : TxDetails} (hd : p.transactions.get x = some d)
    (hno : ¬TxsOK E t h zone l [⟨x, cutIn zone d.tx, h⟩]) {known : Hash → Option Transaction}
    (hknown : known = Function.update (knownIn l p) x (some (cutIn zone d.tx))) :
    CutsTaken E t h zone p l (x :: ids) known := by
  intro id d' hd'
  rw [hknown, Function.update_apply]
  by_cases hid : id = x
  · subst hid
    obtain rfl := Option.some.inj (hd.symm.trans hd')
    exact Or.inl ⟨Taken.head .., if_pos rfl⟩
  · refine Or.inr ⟨fun ht => ?_, by simp [hid, knownIn, hd']⟩
    obtain ⟨d₁, hd₁, hok, -⟩ := (taken_cons hid fun _ _ => rfl).mp ht
    obtain rfl := Option.some.inj (hd.symm.trans hd₁)
    exact hno hok

theorem CutsTaken.step {E : Env} {t h : ℕ} {zone : Bool} {p p' : TxMemoryPool} {l : List TxEntry}
    {ids ids' : List Hash} {x : Hash} {d : TxDetails} (hd : p.transactions.get x = some d)
    (hok : TxsOK E t h zone l [⟨x, cutIn zone d.tx, h⟩])
    (hp : ∀ id', id' ≠ x → p'.transactions.get id' = p.transactions.get id')
    {f known : Hash → Option Transaction} (hf : f x = some (cutIn zone d.tx))
    (hrec : Recalls zone ids' f known)
    (h' : CutsTaken E t h zone p' (l ++ [⟨x, cutIn zone d.tx, h⟩]) ids known) :
    CutsTaken E t h zone p l (x :: ids) known := by
  intro id d' hd'
  by_cases hid : id = x
  · subst hid
    obtain rfl := Option.some.inj (hd.symm.trans hd')
    refine Or.inl ⟨Taken.head .., ?_⟩
    rcases hrec id with he | ⟨-, he⟩
    · exact he.trans hf
    · rw [he, hf, Option.map_some, cutIn_cutIn]
  · have hiff : Taken E t h zone p l (x :: ids) id ↔
        Taken E t h zone p' (l ++ [⟨x, cutIn zone d.tx, h⟩]) ids id := by
      rw [taken_cons hid hp]
      constructor
      · rintro ⟨d₁, hd₁, -, ht⟩
        obtain rfl := Option.some.inj (hd.symm.trans hd₁)
        exact ht
      · exact fun ht => ⟨d, hd, hok, ht⟩
    rw [hiff]
    exact h' id d' ((hp id hid).trans hd')

/-- The transaction loop either appends all transactions of the block, or stops with the first of
them appended and the flags of some references cleared. -/
theorem processTransactions_spec (v : ChainView) (ids : List Hash) {F : Flags} {l : List TxEntry}
    (st : TxLoop) (hrep : TxRep v.env F l st.state) :
    (∃ es st', processTransactions v ids st = .ok st' ∧ es.map TxEntry.id = ids ∧
      TxsOK v.env v.now v.blocks.length v.zone l es ∧
      TxRep v.env (flagsAfter F l es) (l ++ es) st'.state ∧
      st'.feeSummary = feesOf es st.feeSummary ∧
      st'.cumulativeBlockSize = sizesOf es st.cumulativeBlockSize ∧
      st'.txProcessedCount = st.txProcessedCount + es.length ∧
      Fetched (knownIn l st.state.pool) v.zone v.blocks.length ids es ∧
      Recalls v.zone ids (knownIn l st.state.pool) (knownIn (l ++ es) st'.state.pool) ∧
      CutsTaken v.env v.now v.blocks.length v.zone st.state.pool l ids
        (knownIn (l ++ es) st'.state.pool)) ∨
    ∃ es es' R f, processTransactions v ids st = .error f ∧
      f.txProcessedCount = st.txProcessedCount + es.length ∧
      TxRep v.env ((flagsAfter F l es).mark R false) (l ++ es) f.state ∧
      Fetched (knownIn l st.state.pool) v.zone v.blocks.length ids es' ∧
      Tried v.env v.now v.blocks.length v.zone l es' ∧
      es.map TxEntry.id <+: ids ∧ blockRefs l es ++ R ⊆ blockRefs l es' ∧
      Recalls v.zone ids (knownIn l st.state.pool) (knownIn (l ++ es) f.state.pool) ∧
      CutsTaken v.env v.now v.blocks.length v.zone st.state.pool l ids
        (knownIn (l ++ es) f.state.pool) := by
  induction ids generalizing F l st with
  | nil =>
    refine Or.inl ⟨[], st, rfl, rfl, trivial, ?_, rfl, rfl, rfl, Fetched.nil .., ?_, ?_⟩
    · simpa [flagsAfter] using hrep
    · simpa using Recalls.refl _ _ _
    · simpa using CutsTaken.nil v.env v.now v.blocks.length v.zone st.state.pool l
  | cons id ids ih =>
    cases hd : st.state.pool.transactions.get id with
    | none =>
      -- the pool does not have it: the loop stops with nothing taken
      refine Or.inr ⟨[], [], [], ⟨st.state, st.txProcessedCount, false⟩, ?_, rfl, ?_,
        Fetched.nil .., Or.inl trivial, List.nil_prefix, by simp [blockRefs], ?_, ?_⟩
      · simp [processTransactions, takeTx, hd]
      · simpa [flagsAfter, Flags.mark_nil] using hrep
      · simpa using Recalls.refl _ _ _
      · intro id' d' hd'
        have hne : id' ≠ id := fun he => by simp [← he, hd'] at hd
        refine Or.inr ⟨fun ht => ?_, by simp [knownIn, hd']⟩
        obtain ⟨d₁, hd₁, -⟩ := (taken_cons hne fun _ _ => rfl).mp ht
        simp [hd] at hd₁
    | some d =>
      have hfee := (hrep.pool.entry id d hd).fee
      have hsize := (hrep.pool.entry id d hd).blobSize
      have hknown : knownIn l st.state.pool id = some d.tx := by simp [knownIn, hd]
      have hmem : ∀ x ∈ [id], x ∈ id :: ids := by simp
      -- one round: appended, refused by its inputs, or refused because its id is known
      obtain ⟨hcheck, hsem, hcases⟩ := processTransactions_step v hrep hd
      have htake : st.state.pool.takeTx v.env id =
          some (d, eraseTx v.env st.state.pool id d) := by simp [takeTx, hd]
      rcases hcases with ⟨hck, ha, s', hadd, hp, hrep', hupd⟩ | ⟨hck, hrep', hupd⟩ |
        ⟨hck, hna, s', R, hR, hadd, hrep', hupd⟩
      all_goals have hrec := Recalls.of_update hknown hupd
      · -- the transaction goes in; the rest of the block follows
        obtain ⟨m, hm⟩ := Option.isSome_iff_exists.mp hck
        have hstep : processTransactions v (id :: ids) st = processTransactions v ids
            ⟨s', st.txProcessedCount + 1, st.feeSummary + d.fee,
              st.cumulativeBlockSize + d.blobSize⟩ := by
          unfold cutIn cutSignatures at hm hadd
          simp only [processTransactions, htake, hm, hadd]
        have hone : TxsOK v.env v.now v.blocks.length v.zone l
            [⟨id, cutIn v.zone d.tx, v.blocks.length⟩] :=
          ⟨ha, hsem, rfl, cutIn_cutIn .., hcheck ▸ hck, trivial⟩
        have hpool : ∀ id', id' ≠ id →
            s'.pool.transactions.get id' = st.state.pool.transactions.get id' := by
          intro id' hne
          rw [hp]
          exact Map.get_erase_of_ne _ hne
        have hat : knownIn (l ++ [⟨id, cutIn v.zone d.tx, v.blocks.length⟩]) s'.pool id =
            some (cutIn v.zone d.tx) := by
          rw [hupd, Function.update_self]
        -- how the rest ends decides how the whole ends; the entry of this round comes first in both
        rcases ih ⟨s', _, _, _⟩ hrep' with
          ⟨es, st', hproc, hids, htxs, hrep'', hf, hs, hn, hfet, hrec', hcut⟩ |
          ⟨es, es', R, f, hproc, hn, hrep'', hfet, htried, hpre, hsubR, hrec', hcut⟩
        · refine Or.inl ⟨⟨id, cutIn v.zone d.tx, v.blocks.length⟩ :: es, st', hstep.trans hproc,
            by simp [hids], ⟨ha, hsem, rfl, cutIn_cutIn .., hcheck ▸ hck, htxs⟩, ?_, ?_, ?_, ?_,
            Fetched.cons ⟨id, cutIn v.zone d.tx, v.blocks.length⟩ rfl ⟨d.tx, hknown, rfl⟩ hrec hfet,
            ?_, ?_⟩
          · rw [List.append_cons]
            exact hrep''
          · rw [hf, hfee]
            change feesOf es (_ + feeOf d.tx) = feesOf es (_ + feeOf (cutIn v.zone d.tx))
            rw [feeOf_cutIn]
          · rw [hs, hsize]
            change sizesOf es _ = sizesOf es (_ + getObjectBlobsize (cutIn v.zone d.tx))
            rw [getObjectBlobsize_cutIn]
          · rw [hn]
            simp only [List.length_cons]
            omega
          · rw [List.append_cons]
            exact (hrec.trans hrec')
          · rw [List.append_cons]
            exact CutsTaken.step hd hone hpool hat hrec' hcut
        · refine Or.inr ⟨⟨id, cutIn v.zone d.tx, v.blocks.length⟩ :: es,
            ⟨id, cutIn v.zone d.tx, v.blocks.length⟩ :: es', R, f, hstep.trans hproc, ?_, ?_,
            Fetched.cons ⟨id, cutIn v.zone d.tx, v.blocks.length⟩ rfl ⟨d.tx, hknown, rfl⟩ hrec hfet,
            htried.cons hone, by simpa using hpre, ?_, ?_, ?_⟩
          · rw [hn]
            simp only [List.length_cons]
            omega
          · rw [List.append_cons]
            exact hrep''
          · simp only [blockRefs, List.append_assoc]
            exact List.append_subset.mpr ⟨List.subset_append_left .., fun x hx =>
              List.mem_append_right _ (hsubR hx)⟩
          · rw [List.append_cons]
            exact (hrec.trans hrec')
          · rw [List.append_cons]
            exact CutsTaken.step hd hone hpool hat hrec' hcut
      · -- its inputs are refused
        refine Or.inr ⟨[], [], [], ⟨(v.returnTx ⟨st.state.index, st.state.aliasDb,
          eraseTx v.env st.state.pool id d⟩ (cutIn v.zone d.tx)).2, st.txProcessedCount, true⟩,
          ?_, rfl, ?_, Fetched.nil .., Or.inl trivial, List.nil_prefix, by simp [blockRefs], ?_, ?_⟩
        · unfold cutIn cutSignatures at hck
          simp only [processTransactions, htake, hck]
          rfl
        · simpa [flagsAfter, Flags.mark_nil] using hrep'
        · simpa using hrec.mono hmem
        · rw [List.append_nil]
          refine CutsTaken.stop hd (fun hok => ?_) hupd
          have := hok.2.2.2.2.1
          rw [← hcheck, hck] at this
          cases this
      · -- its id is on the chain already
        obtain ⟨m, hm⟩ := Option.isSome_iff_exists.mp hck
        refine Or.inr ⟨[], [⟨id, cutIn v.zone d.tx, v.blocks.length⟩], R,
          ⟨(v.returnTx s' (cutIn v.zone d.tx)).2, st.txProcessedCount, false⟩, ?_, rfl, ?_,
          Fetched.cons ⟨id, cutIn v.zone d.tx, v.blocks.length⟩ rfl ⟨d.tx, hknown, rfl⟩
            (Recalls.refl _ _ _) (Fetched.nil ..),
          Or.inr ⟨[], _, rfl, trivial, by simpa using hcheck ▸ hck⟩, List.nil_prefix, ?_, ?_, ?_⟩
        · unfold cutIn cutSignatures at hm hadd
          simp only [processTransactions, htake, hm, hadd]
          rfl
        · simpa [flagsAfter] using hrep'
        · rcases hR with rfl | rfl <;> simp [blockRefs]
        · simpa using hrec.mono hmem
        · rw [List.append_nil]
          exact CutsTaken.stop hd (fun hok => hna hok.1) hupd

/-- A block whose transactions pass all checks and are in the pool goes through. -/
theorem processTransactions_complete (v : ChainView) (es : List TxEntry) {F : Flags}
    {l : List TxEntry} (st : TxLoop) (hrep : TxRep v.env F l st.state)
    (hok : TxsOK v.env v.now v.blocks.length v.zone l es)
    (hpool : ∀ te ∈ es, ∃ d, st.state.pool.transactions.get te.id = some d ∧
      cutIn v.zone d.tx = te.tx) :
    ∃ st', processTransactions v (es.map TxEntry.id) st = .ok st' ∧
      TxRep v.env (flagsAfter F l es) (l ++ es) st'.state ∧
      st'.feeSummary = feesOf es st.feeSummary ∧
      st'.cumulativeBlockSize = sizesOf es st.cumulativeBlockSize ∧
      st'.txProcessedCount = st.txProcessedCount + es.length ∧
      Recalls v.zone (es.map TxEntry.id) (knownIn l st.state.pool)
        (knownIn (l ++ es) st'.state.pool) ∧
      CutsTaken v.env v.now v.blocks.length v.zone st.state.pool l (es.map TxEntry.id)
        (knownIn (l ++ es) st'.state.pool) := by
  induction es generalizing F l st with
  | nil =>
    refine ⟨st, rfl, by simpa [flagsAfter] using hrep, rfl, rfl, rfl, ?_, ?_⟩
    · simpa using Recalls.refl _ _ _
    · simpa using CutsTaken.nil v.env v.now v.blocks.length v.zone st.state.pool l
  | cons te es ih =>
    obtain ⟨ha, hsem, hheight, hcut, hchk, hrest⟩ := hok
    obtain ⟨d, hd, hdtx⟩ := hpool te (by simp)
    have hfee := (hrep.pool.entry te.id d hd).fee
    have hsize := (hrep.pool.entry te.id d hd).blobSize
    have htake : st.state.pool.takeTx v.env te.id =
        some (d, eraseTx v.env st.state.pool te.id d) := by simp [takeTx, hd]
    obtain ⟨hcheck, -, hcases⟩ := processTransactions_step v hrep hd
    have hte : (⟨te.id, cutIn v.zone d.tx, v.blocks.length⟩ : TxEntry) = te := by
      rw [hdtx, ← hheight]
    rw [hte] at hcheck hcases
    rcases hcases with ⟨hck, -, s', hadd, hp, hrep', hupd⟩ | ⟨hck, -, -⟩ | ⟨-, hna, -⟩
    · have hknown : knownIn l st.state.pool te.id = some d.tx := by simp [knownIn, hd]
      have hone : TxsOK v.env v.now v.blocks.length v.zone l
          [⟨te.id, cutIn v.zone d.tx, v.blocks.length⟩] := by
        rw [hte]
        exact ⟨ha, hsem, hheight, hcut, hchk, trivial⟩
      rw [← hdtx] at hupd
      have hrec := Recalls.of_update hknown hupd
      obtain ⟨m, hm⟩ := Option.isSome_iff_exists.mp hck
      have hstep : processTransactions v ((te :: es).map TxEntry.id) st =
          processTransactions v (es.map TxEntry.id) ⟨s', st.txProcessedCount + 1,
            st.feeSummary + d.fee, st.cumulativeBlockSize + d.blobSize⟩ := by
        rw [← hdtx] at hm hadd
        unfold cutIn cutSignatures at hm hadd
        simp only [List.map_cons, processTransactions, htake, hm, hadd]
      have hids : ∀ te' ∈ es, te'.id ≠ te.id := fun te' hte' he =>
        hrest.id_notMem te' hte' (by simp [he])
      have hpool' : ∀ te' ∈ es, ∃ d', s'.pool.transactions.get te'.id = some d' ∧
          cutIn v.zone d'.tx = te'.tx := by
        intro te' hte'
        obtain ⟨d', hd', hdtx'⟩ := hpool te' (by simp [hte'])
        refine ⟨d', ?_, hdtx'⟩
        rw [hp]
        simp only [eraseTx, Map.get_erase_of_ne _ (hids te' hte')]
        exact hd'
      obtain ⟨st', hproc, hrep'', hf, hs, hn, hrec', hcuts⟩ := ih ⟨s', _, _, _⟩ hrep' hrest hpool'
      refine ⟨st', hstep.trans hproc, ?_, ?_, ?_, ?_, ?_, ?_⟩
      · rw [List.append_cons]
        exact hrep''
      · rw [hf, hfee]
        change feesOf es (_ + feeOf d.tx) = feesOf es (_ + feeOf te.tx)
        rw [← hdtx, feeOf_cutIn]
      · rw [hs, hsize]
        change sizesOf es _ = sizesOf es (_ + getObjectBlobsize te.tx)
        rw [← hdtx, getObjectBlobsize_cutIn]
      · rw [hn]
        simp only [List.length_cons]
        omega
      · rw [List.append_cons]
        exact (hrec.trans hrec')
      · rw [List.append_cons]
        refine CutsTaken.step hd hone (fun id' hne => ?_) ?_ hrec' (by rw [hte]; exact hcuts)
        · rw [hp]
          exact Map.get_erase_of_ne _ hne
        · rw [hupd, Function.update_self]
    · rw [hcheck] at hck
      rw [hck] at hchk
      simp at hchk
    · exact absurd ha hna

end Boolberry
