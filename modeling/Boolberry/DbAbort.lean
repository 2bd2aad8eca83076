import Boolberry.ArchiveRoundTrip
import Boolberry.DbAccessor

/-!
# Aborted transactions

Aborting the outermost write transaction rolls the backend back and drops the
cached values, but not the cached sizes: a size that was read inside the
transaction, after the last write, outlives it.
-/

namespace Boolberry.Db
open KeyValue

/-- The operations that end the validity of the cached size. -/
def Op.writes {K V : Type} : Op K V → Bool
  | .set _ _ | .erase _ | .eraseValidate _ | .clear | .explicitSet _ _ => true
  | .pushBack _ | .popBack => true
  | .get _ | .size => false

def Op.readsSize {K V : Type} : Op K V → Bool
  | .size => true
  | _ => false

namespace Container

variable {K V : Type} {L : Layout K V}

@[simp] theorem isolated_mapCache (c : Container K V) (f : CacheBase K V → CacheBase K V) :
    (c.mapCache L f).isolated = c.isolated := by
  unfold mapCache
  split_ifs <;> rfl

@[simp] theorem db_mapCache (c : Container K V) (f : CacheBase K V → CacheBase K V) :
    (c.mapCache L f).db = c.db := by
  unfold mapCache
  split_ifs <;> rfl

@[simp] theorem sizeCacheValid_mapCache (c : Container K V) (f : CacheBase K V → CacheBase K V) :
    (c.mapCache L f).sizeCacheValid = c.sizeCacheValid := by
  unfold mapCache
  split_ifs <;> rfl

@[simp] theorem sizeCache_mapCache (c : Container K V) (f : CacheBase K V → CacheBase K V) :
    (c.mapCache L f).sizeCache = c.sizeCache := by
  unfold mapCache
  split_ifs <;> rfl

theorem size_snd (c : Container K V) :
    c.size.2 = { c with sizeCache := c.size.1, sizeCacheValid := true } := by
  unfold size
  cases h : c.sizeCacheValid with
  | false => simp
  | true =>
    rw [if_pos rfl, ← h]

theorem size_fst_congr {c c' : Container K V} (hdb : c.db = c'.db)
    (hvalid : c.sizeCacheValid = c'.sizeCacheValid) (hsize : c.sizeCache = c'.sizeCache) :
    c.size.1 = c'.size.1 := by
  unfold size
  rw [hdb, hvalid, hsize]
  split_ifs <;> rfl

variable [DecidableEq K]

/-- A read of a value touches the value cache alone. -/
theorem get_snd (c : Container K V) (k : K) : ∃ cache, (c.get L k).2 = { c with mCache := cache } := by
  unfold get
  split_ifs
  · rcases c.mCache.get k with ⟨_ | v, cache⟩
    · dsimp only
      cases c.baseGet L k with
      | none => exact ⟨_, rfl⟩
      | some v => exact ⟨_, rfl⟩
    · exact ⟨_, rfl⟩
  · exact ⟨_, rfl⟩

/-- No value of the cache differs from the one of the backend. -/
def ValuesRight (L : Layout K V) (c : Container K V) : Prop :=
  ∀ k v node, L.cached → c.mCache.data.get k = some (v, node) → c.baseGet L k = some v

/-- The answer of `get` is the backend's for every key when the cached values are right, and only
then. -/
theorem get_eq_baseGet_iff (c : Container K V) :
    (∀ k, (c.get L k).1 = c.baseGet L k) ↔ c.ValuesRight L := by
  constructor
  · intro h k v node hcached hdata
    rw [← h k]
    simp only [get, CacheBase.get, hcached, hdata, if_true]
  · intro h k
    unfold get CacheBase.get
    split_ifs with hcached
    · rcases hdata : c.mCache.data.get k with _ | ⟨v, node⟩
      · dsimp only
        cases c.baseGet L k <;> rfl
      · exact (h k v node hcached hdata).symm
    · rfl

end Container

section Apply

variable {K V : Type} [DecidableEq K] {L : Layout K V} {w : Bool} (c : Container K V)

theorem apply_isolated (op : Op K V) : (op.apply w L c).isolated = c.isolated := by
  cases op with
  | get k =>
    obtain ⟨cache, h⟩ := c.get_snd (L := L) k
    rw [Op.apply, h]
  | size =>
    rw [Op.apply, c.size_snd]
  | set | erase | eraseValidate | clear | explicitSet =>
    simp [Op.apply, Container.set, Container.erase, Container.eraseValidate, Container.clear,
      Container.explicitSet, Container.write]
  | pushBack | popBack =>
    simp [Op.apply, Container.pushBack, Container.popBack, Container.set, Container.erase,
      Container.write, c.size_snd]

theorem apply_of_writes {op : Op K V} (h : op.writes) :
    (op.apply w L c).sizeCacheValid = false := by
  cases op with
  | get k => simp [Op.writes] at h
  | size => simp [Op.writes] at h
  | set | erase | eraseValidate | clear | explicitSet =>
    simp [Op.apply, Container.set, Container.erase, Container.eraseValidate, Container.clear,
      Container.explicitSet, Container.write]
  | pushBack | popBack =>
    simp [Op.apply, Container.pushBack, Container.popBack, Container.set, Container.erase,
      Container.write]

theorem apply_of_not_writes {op : Op K V} (h : op.writes = false) :
    (op.apply w L c).db = c.db ∧ (op.apply w L c).size.1 = c.size.1 ∧
      (op.apply w L c).sizeCacheValid = (c.sizeCacheValid || op.readsSize) := by
  cases op with
  | get k =>
    obtain ⟨cache, hget⟩ := c.get_snd (L := L) k
    rw [Op.apply, hget]
    exact ⟨rfl, Container.size_fst_congr rfl rfl rfl, by simp [Op.readsSize]⟩
  | size =>
    rw [Op.apply, c.size_snd]
    exact ⟨rfl, rfl, by simp [Op.readsSize]⟩
  | set | erase | eraseValidate | clear | explicitSet => simp [Op.writes] at h
  | pushBack | popBack => simp [Op.writes] at h

end Apply

section Accessor

variable {ι : Type} {K V : ι → Type} (L : ∀ i, Layout (K i) (V i))

theorem hasWriterTxInStack_cons (readonly : Bool) (stack : List Bool) :
    hasWriterTxInStack (readonly :: stack) = (!readonly || hasWriterTxInStack stack) := rfl

variable [DecidableEq ι] [∀ i, DecidableEq (K i)]

theorem apply_bound_self (s : Accessor K V) (i : ι) (op : Op (K i) (V i)) :
    (s.apply L ⟨i, op⟩).bound i =
      op.apply (hasWriterTxInStack s.transactionsStack) (L i) (s.bound i) :=
  Function.update_self _ _ _

theorem apply_bound_of_ne (s : Accessor K V) {i : ι} {op : Σ i, Op (K i) (V i)} (h : op.1 ≠ i) :
    (s.apply L op).bound i = s.bound i :=
  Function.update_of_ne h.symm _ _

/-- Some operation of the list writes to the container. -/
def written (ops : List (Σ i, Op (K i) (V i))) (i : ι) : Bool :=
  ops.any fun op => decide (op.1 = i) && op.2.writes

/-- The size of the container is asked for after the last write to it. -/
def sizeReadLast (ops : List (Σ i, Op (K i) (V i))) (i : ι) : Bool :=
  ops.foldl (fun r op => if op.1 = i then !op.2.writes && (r || op.2.readsSize) else r) false

omit [∀ i, DecidableEq (K i)] in
theorem written_append_one (ops : List (Σ i, Op (K i) (V i))) (op : Σ i, Op (K i) (V i)) (i : ι) :
    written (ops ++ [op]) i = (written ops i || decide (op.1 = i) && op.2.writes) := by
  simp [written]

omit [∀ i, DecidableEq (K i)] in
theorem sizeReadLast_append_one (ops : List (Σ i, Op (K i) (V i))) (op : Σ i, Op (K i) (V i))
    (i : ι) : sizeReadLast (ops ++ [op]) i =
      if op.1 = i then !op.2.writes && (sizeReadLast ops i || op.2.readsSize)
      else sizeReadLast ops i := by
  simp [sizeReadLast]

theorem run_append_one (s : Accessor K V) (ops : List (Σ i, Op (K i) (V i)))
    (op : Σ i, Op (K i) (V i)) : s.run L (ops ++ [op]) = (s.run L ops).apply L op := by
  simp [Accessor.run]

theorem run_transactionsStack (s : Accessor K V) (ops : List (Σ i, Op (K i) (V i))) :
    (s.run L ops).transactionsStack = s.transactionsStack ∧ (s.run L ops).saved = s.saved := by
  induction ops using List.reverseRecOn with
  | nil => exact ⟨rfl, rfl⟩
  | append_singleton ops op ih =>
    rw [run_append_one]
    exact ih

theorem run_isolated (s : Accessor K V) (ops : List (Σ i, Op (K i) (V i))) (i : ι) :
    ((s.run L ops).bound i).isolated = (s.bound i).isolated := by
  induction ops using List.reverseRecOn with
  | nil => rfl
  | append_singleton ops op ih =>
    rw [run_append_one]
    by_cases hi : op.1 = i
    · obtain ⟨j, op⟩ := op
      obtain rfl : j = i := hi
      rw [apply_bound_self, apply_isolated]
      exact ih
    · rw [apply_bound_of_ne L _ hi]
      exact ih

/-- What a run of operations does to the cached size of a container `c₀` that is now `c`. -/
structure SizeAfter {K V : Type} (c₀ c : Container K V) (isWritten isRead : Bool) : Prop where
  untouched : isWritten = false → c.db = c₀.db ∧ c.size.1 = c₀.size.1
  valid : isWritten = true → c.sizeCacheValid = isRead
  answer : isWritten = true → isRead = true → c.size.1 = entries c.db

omit [DecidableEq ι] [∀ i, DecidableEq (K i)] in
/-- The answer of `size` once the backend is as before. -/
theorem SizeAfter.size_eq_iff {K V : Type} {c₀ c : Container K V} {isWritten isRead : Bool}
    (h : SizeAfter c₀ c isWritten isRead) :
    ({ c with db := c₀.db } : Container K V).size.1 = c₀.size.1 ↔
      (isWritten = true →
        if isRead then entries c.db = c₀.size.1 else entries c₀.db = c₀.size.1) := by
  cases isWritten with
  | false =>
    obtain ⟨hdb, hsize⟩ := h.untouched rfl
    rw [← hdb]
    exact iff_of_true hsize fun h => absurd h (by simp)
  | true =>
    have hvalid := h.valid rfl
    cases isRead with
    | false => simp [Container.size, hvalid]
    | true =>
      have hanswer := h.answer rfl rfl
      simp only [Container.size, hvalid, if_true] at hanswer ⊢
      simp [hanswer]

/-- The induction is over the operations from the front; only the ones on the container matter. -/
theorem run_sizeAfter (s : Accessor K V) (ops : List (Σ i, Op (K i) (V i))) (i : ι) :
    SizeAfter (s.bound i) ((s.run L ops).bound i) (written ops i) (sizeReadLast ops i) := by
  induction ops using List.reverseRecOn with
  | nil => exact ⟨fun _ => ⟨rfl, rfl⟩, fun h => absurd h (by simp [written]),
      fun h => absurd h (by simp [written])⟩
  | append_singleton ops op ih =>
    rw [run_append_one, written_append_one, sizeReadLast_append_one]
    by_cases hi : op.1 = i
    swap
    · rw [apply_bound_of_ne L _ hi, if_neg hi, decide_eq_false hi, Bool.false_and, Bool.or_false]
      exact ih
    obtain ⟨j, op⟩ := op
    obtain rfl : j = i := hi
    rw [apply_bound_self, if_pos rfl, decide_eq_true rfl, Bool.true_and]
    cases hwr : op.writes with
    | true =>
      have hvalid := apply_of_writes (L := L j) (w := hasWriterTxInStack
        (s.run L ops).transactionsStack) ((s.run L ops).bound j) hwr
      rw [Bool.or_true]
      exact ⟨fun h => absurd h (by simp), fun _ => hvalid, fun _ h => absurd h (by simp)⟩
    | false =>
      obtain ⟨hdb, hsize, hvalid⟩ := apply_of_not_writes (L := L j) (w := hasWriterTxInStack
        (s.run L ops).transactionsStack) ((s.run L ops).bound j) hwr
      rw [Bool.or_false]
      refine ⟨fun h => ?_, fun h => ?_, fun h hr => ?_⟩
      · rw [hdb, hsize]
        exact ih.untouched h
      · rw [hvalid, ih.valid h]
        rfl
      · rw [hdb, hsize]
        -- the size was cached before, or this read caches it
        cases hread : sizeReadLast ops j with
        | true => exact ih.answer h hread
        | false =>
          have hinv := ih.valid h
          rw [hread] at hinv
          simp only [Container.size, hinv, Bool.false_eq_true, if_false]

variable [Fintype ι]

/-- The states of an accessor on a database of any content. -/
inductive Reached : Accessor K V → Prop
  | opened (db : ι → Map Blob Blob) : Reached (Accessor.opened db)
  | apply {s : Accessor K V} (h : Reached s) (op : Σ i, Op (K i) (V i)) : Reached (s.apply L op)
  | begin {s s' : Accessor K V} (h : Reached s) {readonly : Bool}
      (hs : s.beginTransaction readonly = some s') : Reached s'
  | commit {s s' : Accessor K V} (h : Reached s) (hs : s.commitTransaction = some s') : Reached s'
  | abort {s s' : Accessor K V} (h : Reached s) (hs : s.abortTransaction L = some s') : Reached s'

theorem Reached.isolated {s : Accessor K V} (h : Reached L s) (i : ι) :
    (s.bound i).isolated = hasWriterTxInStack s.transactionsStack := by
  induction h with
  | opened db => rfl
  | @apply s h op ih =>
    by_cases hi : op.1 = i
    · obtain ⟨j, op⟩ := op
      obtain rfl : j = i := hi
      rw [apply_bound_self, apply_isolated]
      exact ih
    · rw [apply_bound_of_ne L s hi]
      exact ih
  | @begin s s' h readonly hs ih =>
    dsimp only [Accessor.beginTransaction] at hs
    split_ifs at hs with hneed hiso
    · obtain rfl := Option.some.inj hs
      obtain rfl : readonly = false := by simpa using hneed.2
      rfl
    · obtain rfl := Option.some.inj hs
      show (s.bound i).isolated = _
      rw [hasWriterTxInStack_cons, ih]
      -- a writer was there before, or the new transaction only reads
      cases readonly <;> cases hw : hasWriterTxInStack s.transactionsStack <;> simp_all
  | @commit s s' h hs ih =>
    dsimp only [Accessor.commitTransaction] at hs
    split at hs
    · rename_i readonly stack db saved hstack hsaved
      rw [hstack, hasWriterTxInStack_cons] at ih
      split_ifs at hs with hlast hiso
      · obtain rfl := Option.some.inj hs
        have hnone : hasWriterTxInStack stack = false := by simpa using hlast.2
        exact hnone.symm
      · obtain rfl := Option.some.inj hs
        show (s.bound i).isolated = hasWriterTxInStack stack
        rw [ih]
        cases readonly <;> cases hw : hasWriterTxInStack stack <;> simp_all
    · exact absurd hs (by simp)
  | @abort s s' h hs ih =>
    dsimp only [Accessor.abortTransaction] at hs
    split at hs
    · rename_i stack db saved hstack hsaved
      rw [hstack, hasWriterTxInStack_cons] at ih
      split_ifs at hs with hlast hiso
      · obtain rfl := Option.some.inj hs
        exact ih.trans hlast.symm
      · obtain rfl := Option.some.inj hs
        have hnone : hasWriterTxInStack stack = false := by simpa using hlast
        exact hnone.symm
    · exact absurd hs (by simp)

/-- The state after an outermost write transaction has begun. -/
def begun (s : Accessor K V) : Accessor K V :=
  { transactionsStack := false :: s.transactionsStack
    saved := (fun i => (s.bound i).db) :: s.saved
    bound := fun i => (s.bound i).onWriteTransactionBegin }

theorem beginTransaction_writer {s : Accessor K V} (h : Reached L s)
    (hw : hasWriterTxInStack s.transactionsStack = false) :
    s.beginTransaction false = some (begun s) := by
  have hiso (i : ι) : (s.bound i).isolated = false := by rw [h.isolated, hw]
  simp only [Accessor.beginTransaction, hw]
  rw [if_pos (by simp), if_pos hiso]
  rfl

omit [DecidableEq ι] [∀ i, DecidableEq (K i)] in
theorem abortTransaction_outermost {s : Accessor K V} {stack : List Bool} {db : ι → Map Blob Blob}
    {saved : List (ι → Map Blob Blob)} (hstack : s.transactionsStack = false :: stack)
    (hsaved : s.saved = db :: saved) (hw : hasWriterTxInStack stack = false)
    (hiso : ∀ i, (s.bound i).isolated = true) :
    s.abortTransaction L = some
      { transactionsStack := stack
        saved := saved
        bound := fun i =>
          ({ s.bound i with db := db i } : Container (K i) (V i)).onWriteTransactionAbort (L i) } := by
  simp only [Accessor.abortTransaction, hstack, hsaved]
  rw [if_neg (by simp [hw]), if_pos hiso]

omit [Fintype ι] [DecidableEq ι] in
/-- After the abort the values come from the backend. -/
theorem get_onWriteTransactionAbort {i : ι} (c : Container (K i) (V i)) (k : K i) :
    ((c.onWriteTransactionAbort (L i)).get (L i) k).1 = c.baseGet (L i) k := by
  have hright : (c.onWriteTransactionAbort (L i)).ValuesRight (L i) := by
    intro k v node hcached hdata
    simp [Container.onWriteTransactionAbort, Container.mapCache, hcached, CacheBase.clear] at hdata
  rw [(Container.get_eq_baseGet_iff _).mpr hright k]
  simp [Container.baseGet, Container.onWriteTransactionAbort]

omit [Fintype ι] [DecidableEq ι] [∀ i, DecidableEq (K i)] in
theorem size_onWriteTransactionAbort {i : ι} (c : Container (K i) (V i)) :
    (c.onWriteTransactionAbort (L i)).size.1 = c.size.1 := by
  refine Container.size_fst_congr ?_ ?_ ?_ <;> simp [Container.onWriteTransactionAbort]

/-- What has to hold of a container for the abort of a transaction that is begun in `s`, to the state
`s₁`, and consists of `ops`: no cached value is wrong in `s`, and a size read after the last write is
the one that `s` answers; without such a read the size cached in `s`, if any, must be right. -/
def Undone (s s₁ : Accessor K V) (ops : List (Σ i, Op (K i) (V i))) (i : ι) : Prop :=
  (s.bound i).ValuesRight (L i) ∧
    (written ops i = true →
      if sizeReadLast ops i then entries ((s₁.run L ops).bound i).db = s.size i
      else entries (s.bound i).db = s.size i)

/-- When the abort of the outermost write transaction brings back what every `get` and `size`
answered before it began. -/
theorem answers_after_abort_iff {s : Accessor K V} (h : Reached L s)
    (hw : hasWriterTxInStack s.transactionsStack = false)
    (ops : List (Σ i, Op (K i) (V i))) :
    ∃ s₁ s₂, s.beginTransaction false = some s₁ ∧ (s₁.run L ops).abortTransaction L = some s₂ ∧
      ((∀ i, (∀ k, s₂.get L i k = s.get L i k) ∧ s₂.size i = s.size i) ↔
        ∀ i, Undone L s s₁ ops i) := by
  refine ⟨_, _, beginTransaction_writer L h hw, abortTransaction_outermost L
    (run_transactionsStack L _ ops).1 (run_transactionsStack L _ ops).2 hw
    (fun i => run_isolated L _ ops i), ?_⟩
  refine forall_congr' fun i => and_congr ?_ ?_
  · rw [← Container.get_eq_baseGet_iff]
    refine forall_congr' fun k => ?_
    simp only [Accessor.get, get_onWriteTransactionAbort]
    exact eq_comm
  · simp only [Accessor.size, size_onWriteTransactionAbort]
    have hsize : ((begun s).bound i).size.1 = (s.bound i).size.1 :=
      Container.size_fst_congr rfl rfl rfl
    have hiff := (run_sizeAfter L (begun s) ops i).size_eq_iff
    rw [hsize] at hiff
    exact hiff

end Accessor

theorem podBytes_injective : Function.Injective fun k : UInt64 => podBytes 8 k.toNat := by
  intro a b hab
  have hval := congrArg podValue hab
  simp only at hval
  rw [podValue_podBytes (by exact a.toNat_lt), podValue_podBytes (by exact b.toNat_lt)] at hval
  exact UInt64.toNat_inj.mp hval

/-- An `array_accessor` of byte strings. -/
def arrayLayout : Layout UInt64 Blob where
  keyToPtr k := podBytes 8 k.toNat
  toBuff v := v
  fromBuff b := some b
  cached := true
  keyToPtr_injective := podBytes_injective
  fromBuff_toBuff _ := rfl

/-- The only container of an empty database. -/
def emptyArray : Accessor (fun _ : Unit => UInt64) (fun _ => Blob) := Accessor.opened fun _ => ∅

/-- An element is pushed and the size is read; `size` still answers 1 after the abort. -/
theorem size_survives_abort :
    ∃ s₁ s₂, emptyArray.beginTransaction false = some s₁ ∧
      (s₁.run (fun _ => arrayLayout) [⟨(), .pushBack [7]⟩, ⟨(), .size⟩]).abortTransaction
        (fun _ => arrayLayout) = some s₂ ∧
      emptyArray.size () = 0 ∧ s₂.size () = 1 := by
  refine ⟨_, _, rfl, rfl, ?_, ?_⟩ <;> decide +kernel

/-- Without the read the abort undoes the push. -/
theorem answers_after_abort_push :
    ∃ s₁ s₂, emptyArray.beginTransaction false = some s₁ ∧
      (s₁.run (fun _ => arrayLayout) [⟨(), .pushBack [7]⟩]).abortTransaction
        (fun _ => arrayLayout) = some s₂ ∧
      ∀ i, (∀ k, s₂.get (fun _ => arrayLayout) i k = emptyArray.get (fun _ => arrayLayout) i k) ∧
        s₂.size i = emptyArray.size i := by
  obtain ⟨s₁, s₂, h₁, h₂, hiff⟩ := answers_after_abort_iff (fun _ : Unit => arrayLayout)
    (s := emptyArray) (Reached.opened _) rfl [⟨(), .pushBack [7]⟩]
  refine ⟨s₁, s₂, h₁, h₂, hiff.mpr ?_⟩
  rintro ⟨⟩
  refine ⟨fun k v node _ hdata => ?_, fun _ => ?_⟩
  · simp [emptyArray, Accessor.opened] at hdata
  · rw [if_neg (by decide)]
    decide +kernel

end Boolberry.Db
