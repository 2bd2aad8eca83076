import Boolberry.Lib.Simulation
import Boolberry.DbAbort

/-!
# Containers as maps, lists and lists under keys

What the accessors of `db_abstract_accessor.h` are for: a caller that only sees
answers cannot tell a cached container from a finite map, an array from a list, and
a container of arrays from a list under each key.
-/

namespace Boolberry.Db
open KeyValue Simulation

/-- What a call gives back; `outOfRange` is the exception. -/
inductive Answer (V : Type) where
  | done
  | value (v : Option V)
  | found (b : Bool)
  | count (n : UInt64)
  | outOfRange

/-- `basic_key_value_accessor` and `cached_key_value_accessor`; `find` and `[]` are `get`. -/
inductive MapCall (K V : Type) where
  | set (k : K) (v : V)
  | get (k : K)
  | erase (k : K)
  | eraseValidate (k : K)
  | clear
  | size
  | clearCache
  | setCacheSize (maxCacheSize : ℕ)

/-- `array_accessor`. -/
inductive ArrayCall (V : Type) where
  | pushBack (v : V)
  | popBack
  | set (k : UInt64) (v : V)
  | clear
  | size
  | back
  | index (k : UInt64)
  | clearCache
  | setCacheSize (maxCacheSize : ℕ)

/-- `basic_key_to_array_accessor`. -/
inductive KeyArrayCall (κ V : Type) where
  | pushBackItem (k : κ) (v : V)
  | popBackItem (k : κ)
  | eraseItems (k : κ)
  | getItemSize (k : κ)
  | getSubitem (k : κ) (i : UInt64)

def MapCall.writes {K V : Type} : MapCall K V → Bool
  | .set _ _ | .erase _ | .eraseValidate _ | .clear => true
  | .get _ | .size | .clearCache | .setCacheSize _ => false

def ArrayCall.writes {V : Type} : ArrayCall V → Bool
  | .pushBack _ | .popBack | .set _ _ | .clear => true
  | .size | .back | .index _ | .clearCache | .setCacheSize _ => false

def KeyArrayCall.writes {κ V : Type} : KeyArrayCall κ V → Bool
  | .pushBackItem _ _ | .popBackItem _ | .eraseItems _ => true
  | .getItemSize _ | .getSubitem _ _ => false

section Map

variable {K V : Type} [DecidableEq K]

def MapCall.apply (w : Bool) (L : Layout K V) (c : Container K V) :
    MapCall K V → Answer V × Container K V
  | .set k v => (.done, c.set w L k v)
  | .get k => (.value (c.get L k).1, (c.get L k).2)
  | .erase k => (.done, c.erase w L k)
  | .eraseValidate k => (.found (c.eraseValidate w L k).1, (c.eraseValidate w L k).2)
  | .clear => (.done, c.clear w L)
  | .size => (.count c.size.1, c.size.2)
  | .clearCache => (.done, c.mapCache L CacheBase.clear)
  | .setCacheSize maxCacheSize =>
      (.done, c.mapCache L fun cache => { cache with macAllowedElements := maxCacheSize })

end Map

section Array

variable {V : Type}

def Container.back (L : Layout UInt64 V) (c : Container UInt64 V) : Answer V × Container UInt64 V :=
  let r := c.size
  match r.2.get L (r.1 - 1) with
  | (none, c') => (.outOfRange, c'.size.2)
  | (some v, c') => (.value (some v), c')

/-- `array_accessor::operator[]`. -/
def Container.index (L : Layout UInt64 V) (c : Container UInt64 V) (k : UInt64) :
    Answer V × Container UInt64 V :=
  match c.get L k with
  | (none, c') => (.outOfRange, c')
  | (some v, c') => (.value (some v), c')

def ArrayCall.apply (w : Bool) (L : Layout UInt64 V) (c : Container UInt64 V) :
    ArrayCall V → Answer V × Container UInt64 V
  | .pushBack v => (.done, c.pushBack w L v)
  | .popBack => (.done, c.popBack w L)
  | .set k v => (.done, c.set w L k v)
  | .clear => (.done, c.clear w L)
  | .size => (.count c.size.1, c.size.2)
  | .back => c.back L
  | .index k => c.index L k
  | .clearCache => (.done, c.mapCache L CacheBase.clear)
  | .setCacheSize maxCacheSize =>
      (.done, c.mapCache L fun cache => { cache with macAllowedElements := maxCacheSize })

end Array

/-- A key type with the bytes of its values, all of one size. -/
structure PodKey (κ : Type) where
  bytes : κ → Blob
  sizeof : ℕ
  length_bytes : ∀ k, (bytes k).length = sizeof
  bytes_injective : Function.Injective bytes

namespace PodKey

variable {κ V : Type} (P : PodKey κ)

/-- `composite_key<t_key, uint64_t>`. -/
def itemKey (k : κ × UInt64) : Blob := P.bytes k.1 ++ podBytes 8 k.2.toNat

/-- `composite_key<t_key, guid_key>` with `const_counter_suffix`. -/
def counterKey (containerId : κ) : Blob :=
  P.bytes containerId ++ (podBytes 8 0xe005d3c8c9e94c2e ++ podBytes 8 0xb94ca40ec25550ad)

theorem itemKey_injective : Function.Injective P.itemKey := by
  rintro ⟨k, i⟩ ⟨k', i'⟩ h
  obtain ⟨hk, hi⟩ := List.append_inj h (by rw [P.length_bytes, P.length_bytes])
  exact Prod.ext (P.bytes_injective hk) (podBytes_injective hi)

theorem counterKey_injective : Function.Injective P.counterKey := by
  intro k k' h
  exact P.bytes_injective (List.append_inj_left h (by rw [P.length_bytes, P.length_bytes]))

theorem itemKey_ne_counterKey (k : κ × UInt64) (k' : κ) : P.itemKey k ≠ P.counterKey k' := by
  intro h
  have := congrArg List.length h
  simp [itemKey, counterKey, P.length_bytes] at this

end PodKey

section KeyArray

variable {κ V : Type} (P : PodKey κ)

/-- The container of a `basic_key_to_array_accessor`, which has no value cache. -/
def PodKey.layout (toBuff : V → Blob) (fromBuff : Blob → Option V)
    (hbuff : ∀ v, fromBuff (toBuff v) = some v) : Layout (κ × UInt64) V where
  keyToPtr := P.itemKey
  toBuff := toBuff
  fromBuff := fromBuff
  cached := false
  keyToPtr_injective := P.itemKey_injective
  fromBuff_toBuff := hbuff

namespace Container

/-- `get_item_size`: the counter, read as a POD. -/
def getItemSize (c : Container (κ × UInt64) V) (k : κ) : UInt64 :=
  match c.db.get (P.counterKey k) with
  | none => 0
  | some b => if b.length = 8 then UInt64.ofNat (podValue b) else 0

/-- Assignment to the counter. -/
def setCounter (w : Bool) (c : Container (κ × UInt64) V) (k : κ) (n : UInt64) :
    Container (κ × UInt64) V :=
  c.explicitSet w (P.counterKey k) (podBytes 8 n.toNat)

variable [DecidableEq κ] (w : Bool) (L : Layout (κ × UInt64) V)

def pushBackItem (c : Container (κ × UInt64) V) (k : κ) (v : V) : Container (κ × UInt64) V :=
  let newIndex := c.getItemSize P k
  (c.setCounter P w k (newIndex + 1)).set w L (k, newIndex) v

def popBackItem (c : Container (κ × UInt64) V) (k : κ) : Container (κ × UInt64) V :=
  let sz := c.getItemSize P k
  if sz = 0 then c else (c.erase w L (k, sz - 1)).setCounter P w k (sz - 1)

/-- The loop of `erase_items`, from `sz` down. -/
def eraseItemsGo (k : κ) : ℕ → Container (κ × UInt64) V → Container (κ × UInt64) V
  | 0, c => c
  | sz + 1, c => eraseItemsGo k sz (c.erase w L (k, UInt64.ofNat sz))

def eraseItems (c : Container (κ × UInt64) V) (k : κ) : Container (κ × UInt64) V :=
  (eraseItemsGo w L k (c.getItemSize P k).toNat c).setCounter P w k 0

def getSubitem (c : Container (κ × UInt64) V) (k : κ) (i : UInt64) : Answer V :=
  if c.getItemSize P k ≤ i then .outOfRange else .value (c.baseGet L (k, i))

end Container

def KeyArrayCall.apply [DecidableEq κ] (w : Bool) (L : Layout (κ × UInt64) V)
    (c : Container (κ × UInt64) V) : KeyArrayCall κ V → Answer V × Container (κ × UInt64) V
  | .pushBackItem k v => (.done, c.pushBackItem P w L k v)
  | .popBackItem k => (.done, c.popBackItem P w L k)
  | .eraseItems k => (.done, c.eraseItems P w L k)
  | .getItemSize k => (.count (c.getItemSize P k), c)
  | .getSubitem k i => (c.getSubitem P L k i, c)

end KeyArray

section Purpose

variable {K κ V : Type} [DecidableEq K] [DecidableEq κ]

/-- A finite map. -/
def MapCall.spec (m : Map K V) : MapCall K V → Answer V × Map K V
  | .set k v => (.done, m.set k v)
  | .get k => (.value (m.get k), m)
  | .erase k => (.done, m.erase k)
  | .eraseValidate k => (.found (m.get k).isSome, m.erase k)
  | .clear => (.done, ∅)
  | .size => (.count (UInt64.ofNat m.keys.card), m)
  | .clearCache => (.done, m)
  | .setCacheSize _ => (.done, m)

/-- The element, or the exception. -/
def Answer.ofElement : Option V → Answer V
  | none => .outOfRange
  | some v => .value (some v)

/-- A list. -/
def ArrayCall.spec (l : List V) : ArrayCall V → Answer V × List V
  | .pushBack v => (.done, l ++ [v])
  | .popBack => (.done, l.dropLast)
  | .set k v => (.done, l.set k.toNat v)
  | .clear => (.done, [])
  | .size => (.count (UInt64.ofNat l.length), l)
  | .back => (.ofElement l.getLast?, l)
  | .index k => (.ofElement l[k.toNat]?, l)
  | .clearCache => (.done, l)
  | .setCacheSize _ => (.done, l)

/-- Nothing is popped off an empty array or set outside it, and the sizes fit `uint64_t`. -/
def ArrayCall.Allowed (l : List V) : ArrayCall V → Prop
  | .pushBack _ => l.length + 1 < 2 ^ 64
  | .popBack => l ≠ []
  | .set k _ => k.toNat < l.length
  | _ => True

/-- A list under each key. -/
def KeyArrayCall.spec (f : κ → List V) : KeyArrayCall κ V → Answer V × (κ → List V)
  | .pushBackItem k v => (.done, Function.update f k (f k ++ [v]))
  | .popBackItem k => (.done, Function.update f k (f k).dropLast)
  | .eraseItems k => (.done, Function.update f k [])
  | .getItemSize k => (.count (UInt64.ofNat (f k).length), f)
  | .getSubitem k i => (.ofElement (f k)[i.toNat]?, f)

def KeyArrayCall.Allowed (f : κ → List V) : KeyArrayCall κ V → Prop
  | .pushBackItem k _ => (f k).length + 1 < 2 ^ 64
  | _ => True

end Purpose

namespace CacheBase

variable {K V : Type} [DecidableEq K]

theorem data_get (c : CacheBase K V) (k : K) : (c.get k).2.data = c.data := by
  unfold get
  cases h : c.data.get k <;> rfl

/-- Whatever a `set` evicts, it brings in one value only. -/
theorem data_set {c : CacheBase K V} {k k' : K} {v : V} {e : V × ℕ}
    (h : (c.set k v).data.get k' = some e) : (k' = k ∧ e.1 = v) ∨
    (k' ≠ k ∧ c.data.get k' = some e) := by
  unfold set trim at h
  simp only at h
  rw [Map.get_eraseAll] at h
  split_ifs at h
  rw [Map.get_set] at h
  split_ifs at h with hk
  · obtain rfl := Option.some.inj h
    exact Or.inl ⟨hk, rfl⟩
  · exact Or.inr ⟨hk, h⟩

theorem data_erase {c : CacheBase K V} {k k' : K} {e : V × ℕ}
    (h : (c.erase k).data.get k' = some e) : k' ≠ k ∧ c.data.get k' = some e := by
  unfold erase at h
  cases hk : c.data.get k with
  | none =>
    rw [hk] at h
    refine ⟨?_, h⟩
    rintro rfl
    simp [hk] at h
  | some e' =>
    rw [hk] at h
    simp only [Map.get_erase] at h
    split_ifs at h with hne
    exact ⟨hne, h⟩

end CacheBase

section Stores

variable {K V : Type} [DecidableEq K] {L : Layout K V} {c : Container K V} {m : Map K V}

/-- The container stores `m`: the backend has the entries of `m` and no others, and what is cached of
values and sizes is right. -/
structure Stores (L : Layout K V) (c : Container K V) (m : Map K V) : Prop where
  keys : c.db.keys = m.keys.image L.keyToPtr
  get : ∀ k v, m.get k = some v → c.db.get (L.keyToPtr k) = some (L.toBuff v)
  values : ∀ k e, L.cached → c.mCache.data.get k = some e → m.get k = some e.1
  size : c.sizeCacheValid = true → c.sizeCache = entries c.db

theorem keys_set (m : Map K V) (k : K) (v : V) : (m.set k v).keys = insert k m.keys := by
  refine Finset.ext fun k' => ?_
  rw [Finset.mem_insert, Map.mem_keys, Map.mem_keys, Map.get_set]
  split_ifs with h <;> simp [h]

theorem keys_erase (m : Map K V) (k : K) : (m.erase k).keys = m.keys.erase k := by
  refine Finset.ext fun k' => ?_
  rw [Finset.mem_erase, Map.mem_keys, Map.mem_keys, Map.get_erase]
  split_ifs with h <;> simp [h]

theorem keys_empty : (∅ : Map K V).keys = ∅ := by
  refine Finset.eq_empty_iff_forall_notMem.mpr fun k hk => ?_
  obtain ⟨v, hv⟩ := Map.mem_keys.mp hk
  simp at hv

namespace Stores

theorem baseGet_eq (h : Stores L c m) (k : K) : c.baseGet L k = m.get k := by
  unfold Container.baseGet
  cases hk : m.get k with
  | some v => rw [h.get k v hk, Option.bind_some, L.fromBuff_toBuff]
  | none =>
    have hnone : c.db.get (L.keyToPtr k) = none := by
      by_contra hne
      have hmem : L.keyToPtr k ∈ c.db.keys := Map.mem_keys.mpr (Option.ne_none_iff_exists'.mp hne)
      rw [h.keys, Finset.mem_image] at hmem
      obtain ⟨k', hk', heq⟩ := hmem
      obtain ⟨v, hv⟩ := Map.mem_keys.mp hk'
      rw [L.keyToPtr_injective heq, hk] at hv
      exact absurd hv (by simp)
    rw [hnone, Option.bind_none]

theorem valuesRight (h : Stores L c m) : c.ValuesRight L := fun k v node hcached hdata => by
  rw [h.baseGet_eq, h.values k _ hcached hdata]

theorem card (h : Stores L c m) : entries c.db = UInt64.ofNat m.keys.card := by
  rw [entries, h.keys, Finset.card_image_of_injective _ L.keyToPtr_injective]

theorem get_fst (h : Stores L c m) (k : K) : (c.get L k).1 = m.get k := by
  rw [(Container.get_eq_baseGet_iff c).mpr h.valuesRight, h.baseGet_eq]

theorem get_snd (h : Stores L c m) (k : K) : Stores L (c.get L k).2 m := by
  unfold Container.get
  split_ifs with hcached
  swap
  · exact h
  have hdata := CacheBase.data_get c.mCache k
  rcases hget : c.mCache.get k with ⟨_ | v, cache⟩
  · rw [hget] at hdata
    dsimp only at hdata ⊢
    cases hbase : c.baseGet L k with
    | none => exact ⟨h.keys, h.get, fun k' e hc he => h.values k' e hc (hdata ▸ he), h.size⟩
    | some v =>
      refine ⟨h.keys, h.get, fun k' e hc he => ?_, h.size⟩
      rcases CacheBase.data_set he with ⟨rfl, rfl⟩ | ⟨-, he⟩
      · rw [← h.baseGet_eq, hbase]
      · exact h.values k' e hc (hdata ▸ he)
  · rw [hget] at hdata
    exact ⟨h.keys, h.get, fun k' e hc he => h.values k' e hc (hdata ▸ he), h.size⟩

theorem size_fst (h : Stores L c m) : c.size.1 = UInt64.ofNat m.keys.card := by
  unfold Container.size
  split_ifs with hvalid
  · rw [h.size hvalid, h.card]
  · exact h.card

theorem size_snd (h : Stores L c m) : Stores L c.size.2 m := by
  refine c.size_snd ▸ ⟨h.keys, h.get, h.values, fun _ => ?_⟩
  exact h.size_fst.trans h.card.symm

theorem set (h : Stores L c m) (k : K) (v : V) : Stores L (c.set true L k v) (m.set k v) := by
  unfold Container.set
  refine ⟨?_, fun k' v' hk' => ?_, fun k' e hc he => ?_, by simp [Container.write]⟩
  · simp only [Container.db_mapCache, Container.write, if_true]
    rw [keys_set, keys_set, h.keys, Finset.image_insert]
  · simp only [Container.db_mapCache, Container.write, if_true]
    rw [Map.get_set] at hk'
    split_ifs at hk' with heq
    · obtain rfl := Option.some.inj hk'
      rw [heq, Map.get_set_self]
    · rw [Map.get_set_of_ne _ _ fun hp => heq (L.keyToPtr_injective hp)]
      exact h.get k' v' hk'
  · simp only [Container.mapCache, hc, if_true, Container.write] at he
    rw [Map.get_set]
    rcases CacheBase.data_set he with ⟨rfl, rfl⟩ | ⟨hne, he⟩
    · rw [if_pos rfl]
    · rw [if_neg hne]
      exact h.values k' e hc he

theorem erase (h : Stores L c m) (k : K) : Stores L (c.erase true L k) (m.erase k) := by
  unfold Container.erase
  refine ⟨?_, fun k' v' hk' => ?_, fun k' e hc he => ?_, by simp [Container.write]⟩
  · simp only [Container.db_mapCache, Container.write, if_true]
    rw [keys_erase, keys_erase, h.keys, Finset.image_erase L.keyToPtr_injective]
  · simp only [Container.db_mapCache, Container.write, if_true]
    rw [Map.get_erase] at hk'
    split_ifs at hk' with heq
    rw [Map.get_erase_of_ne _ fun hp => heq (L.keyToPtr_injective hp)]
    exact h.get k' v' hk'
  · simp only [Container.mapCache, hc, if_true, Container.write] at he
    obtain ⟨hne, he⟩ := CacheBase.data_erase he
    rw [Map.get_erase_of_ne _ hne]
    exact h.values k' e hc he

theorem empty {c : Container K V} (hdb : c.db = ∅) (hdata : L.cached → c.mCache.data = ∅)
    (hsize : c.sizeCacheValid = false) : Stores L c ∅ := by
  refine ⟨?_, by simp, fun k e hc he => ?_, by simp [hsize]⟩
  · rw [hdb, keys_empty, keys_empty, Finset.image_empty]
  · rw [hdata hc] at he
    simp at he

theorem clear (c : Container K V) : Stores L (c.clear true L) ∅ :=
  empty (by simp [Container.clear, Container.write])
    (fun hc => by simp [Container.clear, Container.write, Container.mapCache, hc, CacheBase.clear])
    rfl

/-- The value cache may lose values, never gain any. -/
theorem mapCache (h : Stores L c m) {f : CacheBase K V → CacheBase K V}
    (hf : ∀ k e, (f c.mCache).data.get k = some e → c.mCache.data.get k = some e) :
    Stores L (c.mapCache L f) m := by
  refine ⟨by simp [h.keys], by simpa using h.get, fun k e hc he => ?_, by simpa using h.size⟩
  simp only [Container.mapCache, hc, if_true] at he
  exact h.values k e hc (hf k e he)

end Stores

end Stores

theorem MapCall.simulates {K V : Type} [DecidableEq K] (L : Layout K V) :
    Simulates (fun c (call : MapCall K V) => call.apply true L c) (fun m call => call.spec m)
      (fun _ _ => True) (Stores L) := by
  rintro c m call h -
  cases call with
  | set k v => exact ⟨rfl, h.set k v⟩
  | get k => exact ⟨congrArg Answer.value (h.get_fst k), h.get_snd k⟩
  | erase k => exact ⟨rfl, h.erase k⟩
  | eraseValidate k =>
    refine ⟨congrArg Answer.found ?_, h.erase k⟩
    rw [Container.eraseValidate, h.baseGet_eq]
  | clear => exact ⟨rfl, Stores.clear c⟩
  | size => exact ⟨congrArg Answer.count h.size_fst, h.size_snd⟩
  | clearCache => exact ⟨rfl, h.mapCache (by simp [CacheBase.clear])⟩
  | setCacheSize n =>
    exact ⟨rfl, h.mapCache (f := fun cache => { cache with macAllowedElements := n }) fun _ _ he => he⟩

section List

variable {V : Type} {m : Map UInt64 V} {l : List V}

/-- The entries of `m` are the elements of `l` under their indices. -/
structure IsList (m : Map UInt64 V) (l : List V) : Prop where
  lt : l.length < 2 ^ 64
  get : ∀ k, m.get k = l[k.toNat]?

theorem toNat_ofNat_of_lt {n : ℕ} (h : n < 2 ^ 64) : (UInt64.ofNat n).toNat = n := by
  rw [UInt64.toNat_ofNat', Nat.mod_eq_of_lt h]

theorem eq_ofNat_iff {n : ℕ} (h : n < 2 ^ 64) {k : UInt64} : k = UInt64.ofNat n ↔ k.toNat = n := by
  rw [← UInt64.toNat_inj, toNat_ofNat_of_lt h]

/-- The index of the last element, as the code computes it. -/
theorem ofNat_sub_one {n : ℕ} (h : n < 2 ^ 64) (hpos : n ≠ 0) :
    (UInt64.ofNat n - 1).toNat = n - 1 := by
  have hle : (1 : UInt64) ≤ UInt64.ofNat n := by
    rw [UInt64.le_iff_toNat_le, toNat_ofNat_of_lt h]
    exact Nat.one_le_iff_ne_zero.mpr hpos
  rw [UInt64.toNat_sub_of_le _ _ hle, toNat_ofNat_of_lt h]
  rfl

namespace IsList

theorem card (h : IsList m l) : m.keys.card = l.length := by
  have hkeys : m.keys = (Finset.range l.length).image UInt64.ofNat := by
    refine Finset.ext fun k => ?_
    rw [Map.mem_keys, h.get, Finset.mem_image]
    constructor
    · rintro ⟨v, hv⟩
      exact ⟨k.toNat, Finset.mem_range.mpr (List.getElem?_eq_some_iff.mp hv).1, UInt64.ofNat_toNat⟩
    · rintro ⟨n, hn, rfl⟩
      have hn := Finset.mem_range.mp hn
      rw [toNat_ofNat_of_lt (hn.trans h.lt)]
      exact ⟨l[n], List.getElem?_eq_getElem hn⟩
  rw [hkeys, Finset.card_image_of_injOn, Finset.card_range]
  intro a ha b hb hab
  have ha := Finset.mem_range.mp ha
  have hb := Finset.mem_range.mp hb
  rw [← toNat_ofNat_of_lt (ha.trans h.lt), ← toNat_ofNat_of_lt (hb.trans h.lt), hab]

theorem empty : IsList (∅ : Map UInt64 V) [] := ⟨by simp, by simp⟩

theorem push (h : IsList m l) (hlt : l.length + 1 < 2 ^ 64) (v : V) :
    IsList (m.set (UInt64.ofNat l.length) v) (l ++ [v]) := by
  refine ⟨by simpa using hlt, fun k => ?_⟩
  simp only [Map.get_set, eq_ofNat_iff h.lt]
  split_ifs with hk
  · rw [hk, List.getElem?_concat_length]
  · rw [h.get, List.getElem?_append]
    split_ifs with hlt
    · rfl
    · rw [List.getElem?_eq_none (by omega), List.getElem?_eq_none (by simp; omega)]

theorem pop (h : IsList m l) (hne : l ≠ []) :
    IsList (m.erase (UInt64.ofNat l.length - 1)) l.dropLast := by
  have hlen := List.length_pos_iff.mpr hne
  have hlt := h.lt
  refine ⟨by rw [List.length_dropLast]; omega, fun k => ?_⟩
  simp only [Map.get_erase, ← UInt64.toNat_inj, ofNat_sub_one hlt hlen.ne', List.getElem?_dropLast,
    h.get]
  split_ifs with hk hk' hk'
  · omega
  · rfl
  · rfl
  · exact List.getElem?_eq_none (by omega)

theorem set (h : IsList m l) {k : UInt64} (hk : k.toNat < l.length) (v : V) :
    IsList (m.set k v) (l.set k.toNat v) := by
  refine ⟨by simpa using h.lt, fun k' => ?_⟩
  simp only [Map.get_set, List.getElem?_set, ← UInt64.toNat_inj, h.get]
  split_ifs with heq heq' heq'
  · rfl
  · omega
  · omega
  · rfl

/-- The element at `size() - 1`; without elements that is the greatest index. -/
theorem get_last (h : IsList m l) : m.get (UInt64.ofNat l.length - 1) = l.getLast? := by
  have hlt := h.lt
  rw [h.get, List.getLast?_eq_getElem?]
  by_cases hnil : l.length = 0
  · rw [List.getElem?_eq_none (by omega), List.getElem?_eq_none (by omega)]
  · rw [ofNat_sub_one hlt hnil]

end IsList

/-- The container of an array stores the list `l`. -/
def StoresList (L : Layout UInt64 V) (c : Container UInt64 V) (l : List V) : Prop :=
  ∃ m, Stores L c m ∧ IsList m l

theorem ArrayCall.simulates (L : Layout UInt64 V) :
    Simulates (fun c (call : ArrayCall V) => call.apply true L c) (fun l call => call.spec l)
      (fun l call => call.Allowed l) (StoresList L) := by
  rintro c l call ⟨m, h, hm⟩ hallowed
  have hsize : c.size.1 = UInt64.ofNat l.length := by rw [h.size_fst, hm.card]
  cases call with
  | pushBack v =>
    refine ⟨rfl, m.set (UInt64.ofNat l.length) v, ?_, hm.push hallowed v⟩
    have := h.size_snd.set (UInt64.ofNat l.length) v
    rwa [← hsize] at this ⊢
  | popBack =>
    refine ⟨rfl, m.erase (UInt64.ofNat l.length - 1), ?_, hm.pop hallowed⟩
    have := h.size_snd.erase (UInt64.ofNat l.length - 1)
    rwa [← hsize] at this ⊢
  | set k v => exact ⟨rfl, m.set k v, h.set k v, hm.set hallowed v⟩
  | clear => exact ⟨rfl, ∅, Stores.clear c, .empty⟩
  | size => exact ⟨congrArg Answer.count hsize, m, h.size_snd, hm⟩
  | back =>
    have hget := h.size_snd.get_fst (UInt64.ofNat l.length - 1)
    have hnext := h.size_snd.get_snd (UInt64.ofNat l.length - 1)
    rw [hm.get_last] at hget
    change (c.back L).1 = Answer.ofElement l.getLast? ∧ StoresList L (c.back L).2 l
    simp only [Container.back, hsize]
    generalize c.size.2.get L (UInt64.ofNat l.length - 1) = r at hget hnext ⊢
    obtain ⟨_ | v, c'⟩ := r
    · exact ⟨congrArg Answer.ofElement hget, m, hnext.size_snd, hm⟩
    · exact ⟨congrArg Answer.ofElement hget, m, hnext, hm⟩
  | index k =>
    have hget := h.get_fst k
    have hnext := h.get_snd k
    rw [hm.get] at hget
    change (c.index L k).1 = Answer.ofElement l[k.toNat]? ∧ StoresList L (c.index L k).2 l
    unfold Container.index
    generalize c.get L k = r at hget hnext ⊢
    obtain ⟨_ | v, c'⟩ := r
    · exact ⟨congrArg Answer.ofElement hget, m, hnext, hm⟩
    · exact ⟨congrArg Answer.ofElement hget, m, hnext, hm⟩
  | clearCache => exact ⟨rfl, m, h.mapCache (by simp [CacheBase.clear]), hm⟩
  | setCacheSize n =>
    exact ⟨rfl, m,
      h.mapCache (f := fun cache => { cache with macAllowedElements := n }) fun _ _ he => he, hm⟩

end List

section KeyArray

variable {κ V : Type} [DecidableEq κ] (P : PodKey κ) (toBuff : V → Blob)
  (fromBuff : Blob → Option V) (hbuff : ∀ v, fromBuff (toBuff v) = some v)
  (c : Container (κ × UInt64) V)

theorem getItemSize_setCounter (k k' : κ) (n : UInt64) :
    (c.setCounter P true k n).getItemSize P k' = if k' = k then n else c.getItemSize P k' := by
  simp only [Container.getItemSize, Container.setCounter, Container.explicitSet, Container.write,
    if_true, Map.get_set, P.counterKey_injective.eq_iff]
  split_ifs with h
  · simp only [length_podBytes, if_true]
    rw [podValue_podBytes (by exact n.toNat_lt), UInt64.ofNat_toNat]
  · rfl

theorem getItemSize_set (q : κ × UInt64) (v : V) (k' : κ) :
    (c.set true (P.layout toBuff fromBuff hbuff) q v).getItemSize P k' = c.getItemSize P k' := by
  simp only [Container.getItemSize, Container.set, Container.db_mapCache, Container.write, if_true,
    PodKey.layout]
  rw [Map.get_set_of_ne _ _ (P.itemKey_ne_counterKey q k').symm]

theorem getItemSize_erase (q : κ × UInt64) (k' : κ) :
    (c.erase true (P.layout toBuff fromBuff hbuff) q).getItemSize P k' = c.getItemSize P k' := by
  simp only [Container.getItemSize, Container.erase, Container.db_mapCache, Container.write, if_true,
    PodKey.layout]
  rw [Map.get_erase_of_ne _ (P.itemKey_ne_counterKey q k').symm]

omit [DecidableEq κ] in
theorem item_setCounter (k : κ) (n : UInt64) (q : κ × UInt64) :
    (c.setCounter P true k n).db.get (P.itemKey q) = c.db.get (P.itemKey q) := by
  simp only [Container.setCounter, Container.explicitSet, Container.write, if_true]
  rw [Map.get_set_of_ne _ _ (P.itemKey_ne_counterKey q k)]

theorem item_set (q q' : κ × UInt64) (v : V) :
    (c.set true (P.layout toBuff fromBuff hbuff) q v).db.get (P.itemKey q') =
      if q' = q then some (toBuff v) else c.db.get (P.itemKey q') := by
  simp only [Container.set, Container.db_mapCache, Container.write, if_true, PodKey.layout,
    Map.get_set, P.itemKey_injective.eq_iff]

theorem item_erase (q q' : κ × UInt64) :
    (c.erase true (P.layout toBuff fromBuff hbuff) q).db.get (P.itemKey q') =
      if q' = q then none else c.db.get (P.itemKey q') := by
  simp only [Container.erase, Container.db_mapCache, Container.write, if_true, PodKey.layout,
    Map.get_erase, P.itemKey_injective.eq_iff]

theorem eraseItemsGo_spec (k : κ) (sz : ℕ) :
    (∀ k', (Container.eraseItemsGo true (P.layout toBuff fromBuff hbuff) k sz c).getItemSize P k' =
      c.getItemSize P k') ∧
    ∀ q, q.1 ≠ k → (Container.eraseItemsGo true (P.layout toBuff fromBuff hbuff) k sz c).db.get
      (P.itemKey q) = c.db.get (P.itemKey q) := by
  induction sz generalizing c with
  | zero => exact ⟨fun _ => rfl, fun _ _ => rfl⟩
  | succ sz ih =>
    obtain ⟨hsize, hitem⟩ :=
      ih (c.erase true (P.layout toBuff fromBuff hbuff) (k, UInt64.ofNat sz))
    refine ⟨fun k' => (hsize k').trans (getItemSize_erase P toBuff fromBuff hbuff c _ k'),
      fun q hq => (hitem q hq).trans ?_⟩
    rw [item_erase, if_neg fun h => hq (congrArg Prod.fst h)]

/-- The container stores the list `f k` under each key `k`: its counter and its items. -/
structure StoresLists (c : Container (κ × UInt64) V) (f : κ → List V) : Prop where
  lt : ∀ k, (f k).length < 2 ^ 64
  counter : ∀ k, c.getItemSize P k = UInt64.ofNat (f k).length
  item : ∀ q v, (f q.1)[q.2.toNat]? = some v → c.db.get (P.itemKey q) = some (toBuff v)

variable {P toBuff fromBuff hbuff} {c} {f : κ → List V}

theorem KeyArrayCall.simulates :
    Simulates (fun c (call : KeyArrayCall κ V) =>
        call.apply P true (P.layout toBuff fromBuff hbuff) c)
      (fun f call => call.spec f) (fun f call => call.Allowed f) (StoresLists P toBuff) := by
  rintro c f call h hallowed
  cases call with
  | pushBackItem k v =>
    -- two writes: the counter, then the item at the place it held before
    have hk := h.lt k
    refine ⟨rfl, fun k' => ?_, fun k' => ?_, fun q w hq => ?_⟩
    · change (Function.update f k (f k ++ [v]) k').length < _
      rcases eq_or_ne k' k with rfl | hne
      · rw [Function.update_self, List.length_append]
        exact hallowed
      · rw [Function.update_of_ne hne]
        exact h.lt k'
    · change (c.pushBackItem P true _ k v).getItemSize P k' =
        UInt64.ofNat (Function.update f k (f k ++ [v]) k').length
      rw [Container.pushBackItem, getItemSize_set, getItemSize_setCounter, h.counter, h.counter]
      rcases eq_or_ne k' k with rfl | hne
      · rw [if_pos rfl, Function.update_self, List.length_append, UInt64.ofNat_add]
        rfl
      · rw [if_neg hne, Function.update_of_ne hne]
    · change (c.pushBackItem P true _ k v).db.get (P.itemKey q) = _
      replace hq : (Function.update f k (f k ++ [v]) q.1)[q.2.toNat]? = some w := hq
      rw [Container.pushBackItem, item_set, item_setCounter, h.counter]
      obtain ⟨k', i⟩ := q
      rcases eq_or_ne k' k with rfl | hne
      · rw [Function.update_self] at hq
        split_ifs with hlast
        · rw [(eq_ofNat_iff hk).mp (congrArg Prod.snd hlast), List.getElem?_concat_length] at hq
          rw [Option.some.inj hq]
        · refine h.item _ w ?_
          have hi : i.toNat ≠ (f k').length := fun hi =>
            hlast (Prod.ext rfl ((eq_ofNat_iff hk).mpr hi))
          rw [List.getElem?_append] at hq
          split_ifs at hq with hlt
          · exact hq
          · -- behind the end only the new element's place is taken
            have hone := (List.getElem?_eq_some_iff.mp hq).1
            simp only [List.length_singleton] at hone hlt
            omega
      · rw [if_neg fun hp => hne (congrArg Prod.fst hp)]
        rw [Function.update_of_ne hne] at hq
        exact h.item _ w hq
  | popBackItem k =>
    have hk := h.lt k
    change Answer.done = Answer.done ∧ StoresLists P toBuff (c.popBackItem P true _ k)
      (Function.update f k (f k).dropLast)
    refine ⟨rfl, ?_⟩
    rw [Container.popBackItem, h.counter]
    -- an empty array is left alone, so its counter never wraps below zero
    by_cases hnil : f k = []
    · have hsame : Function.update f k (f k).dropLast = f := by
        rw [hnil, List.dropLast_nil, ← hnil, Function.update_eq_self]
      rw [hsame, if_pos (by rw [hnil]; rfl)]
      exact h
    have hlen := List.length_pos_iff.mpr hnil
    have hsub := ofNat_sub_one hk hlen.ne'
    have hzero : UInt64.ofNat (f k).length ≠ 0 := fun hz => by
      have := congrArg UInt64.toNat hz
      rw [toNat_ofNat_of_lt hk] at this
      exact hlen.ne' this
    rw [if_neg hzero]
    refine ⟨fun k' => ?_, fun k' => ?_, fun q w hq => ?_⟩
    · rcases eq_or_ne k' k with rfl | hne
      · rw [Function.update_self, List.length_dropLast]
        omega
      · rw [Function.update_of_ne hne]
        exact h.lt k'
    · rw [getItemSize_setCounter, getItemSize_erase, h.counter]
      rcases eq_or_ne k' k with rfl | hne
      · rw [if_pos rfl, Function.update_self, List.length_dropLast, eq_ofNat_iff (by omega), hsub]
      · rw [if_neg hne, Function.update_of_ne hne]
    · rw [item_setCounter, item_erase]
      obtain ⟨k', i⟩ := q
      rcases eq_or_ne k' k with rfl | hne
      · dsimp only at hq
        rw [Function.update_self, List.getElem?_dropLast] at hq
        split_ifs at hq with hlt
        rw [if_neg, h.item _ w hq]
        intro hp
        have := congrArg (fun q : κ × UInt64 => q.2.toNat) hp
        simp only [hsub] at this
        omega
      · dsimp only at hq
        rw [Function.update_of_ne hne] at hq
        rw [if_neg fun hp => hne (congrArg Prod.fst hp), h.item _ w hq]
  | eraseItems k =>
    change Answer.done = Answer.done ∧ StoresLists P toBuff (c.eraseItems P true _ k)
      (Function.update f k [])
    obtain ⟨hsize, hitem⟩ := eraseItemsGo_spec P toBuff fromBuff hbuff c k (c.getItemSize P k).toNat
    refine ⟨rfl, fun k' => ?_, fun k' => ?_, fun q w hq => ?_⟩
    · rcases eq_or_ne k' k with rfl | hne
      · simp
      · rw [Function.update_of_ne hne]
        exact h.lt k'
    · rw [Container.eraseItems, getItemSize_setCounter, hsize, h.counter k']
      rcases eq_or_ne k' k with rfl | hne
      · rw [if_pos rfl, Function.update_self]
        rfl
      · rw [if_neg hne, Function.update_of_ne hne]
    · -- of the key's own items nothing is asked any more
      rcases eq_or_ne q.1 k with heq | hne
      · rw [heq, Function.update_self] at hq
        simp at hq
      · rw [Function.update_of_ne hne] at hq
        rw [Container.eraseItems, item_setCounter, hitem q hne, h.item q w hq]
  | getItemSize k => exact ⟨congrArg Answer.count (h.counter k), h⟩
  | getSubitem k i =>
    refine ⟨?_, h⟩
    change c.getSubitem P _ k i = Answer.ofElement (f k)[i.toNat]?
    simp only [Container.getSubitem, h.counter, UInt64.le_iff_toNat_le, toNat_ofNat_of_lt (h.lt k)]
    split_ifs with hle
    · rw [List.getElem?_eq_none hle]
      rfl
    · have hget := List.getElem?_eq_getElem (not_le.mp hle)
      rw [hget, Container.baseGet]
      have hdb := h.item (k, i) _ hget
      simp only [PodKey.layout, hdb, Option.bind_some, hbuff]
      rfl

end KeyArray

namespace Container

variable {K V : Type} [DecidableEq K] (w : Bool) (L : Layout K V) (c : Container K V)

@[simp] theorem isolated_set (k : K) (v : V) : (c.set w L k v).isolated = c.isolated := by
  simp [set, write]

@[simp] theorem isolated_erase (k : K) : (c.erase w L k).isolated = c.isolated := by
  simp [erase, write]

omit [DecidableEq K] in
@[simp] theorem isolated_clear : (c.clear w L).isolated = c.isolated := by
  simp [clear, write]

omit [DecidableEq K] in
@[simp] theorem isolated_size : c.size.2.isolated = c.isolated := by
  rw [size_snd]

@[simp] theorem isolated_get (k : K) : (c.get L k).2.isolated = c.isolated := by
  obtain ⟨cache, h⟩ := c.get_snd (L := L) k
  rw [h]

end Container

theorem MapCall.apply_isolated {K V : Type} [DecidableEq K] (w : Bool) (L : Layout K V)
    (c : Container K V) (call : MapCall K V) : (call.apply w L c).2.isolated = c.isolated := by
  cases call <;> simp [apply, Container.eraseValidate]

theorem ArrayCall.apply_isolated {V : Type} (w : Bool) (L : Layout UInt64 V)
    (c : Container UInt64 V) (call : ArrayCall V) : (call.apply w L c).2.isolated = c.isolated := by
  cases call with
  | pushBack | popBack => simp [apply, Container.pushBack, Container.popBack]
  | set | clear | size | clearCache | setCacheSize => simp [apply]
  | back =>
    have hget := Container.isolated_get L c.size.2 (c.size.1 - 1)
    simp only [apply, Container.back]
    generalize c.size.2.get L (c.size.1 - 1) = r at hget ⊢
    obtain ⟨_ | v, c'⟩ := r <;> simpa using hget
  | index k =>
    have hget := Container.isolated_get L c k
    simp only [apply, Container.index]
    generalize c.get L k = r at hget ⊢
    obtain ⟨_ | v, c'⟩ := r <;> exact hget

theorem KeyArrayCall.apply_isolated {κ V : Type} [DecidableEq κ] (P : PodKey κ) (w : Bool)
    (L : Layout (κ × UInt64) V) (c : Container (κ × UInt64) V) (call : KeyArrayCall κ V) :
    (call.apply P w L c).2.isolated = c.isolated := by
  have hcounter (c : Container (κ × UInt64) V) (k : κ) (n : UInt64) :
      (c.setCounter P w k n).isolated = c.isolated := rfl
  have hloop (k : κ) (sz : ℕ) (c : Container (κ × UInt64) V) :
      (Container.eraseItemsGo w L k sz c).isolated = c.isolated := by
    induction sz generalizing c with
    | zero => rfl
    | succ sz ih => rw [Container.eraseItemsGo, ih, Container.isolated_erase]
  cases call with
  | pushBackItem k v => simp [apply, Container.pushBackItem, hcounter]
  | popBackItem k =>
    simp only [apply, Container.popBackItem]
    split_ifs
    · rfl
    · rw [hcounter, Container.isolated_erase]
  | eraseItems k => rw [apply, Container.eraseItems, hcounter, hloop]
  | getItemSize | getSubitem => rfl

/-- The accessors a database can have. -/
inductive Kind : Type 1 where
  | map (K V : Type) (decEq : DecidableEq K) (L : Layout K V)
  | array (V : Type) (L : Layout UInt64 V)
  | keyToArray (κ V : Type) (decEq : DecidableEq κ) (P : PodKey κ) (toBuff : V → Blob)
      (fromBuff : Blob → Option V) (hbuff : ∀ v, fromBuff (toBuff v) = some v)

namespace Kind

def Key : Kind → Type
  | .map K .. => K
  | .array .. => UInt64
  | .keyToArray κ .. => κ × UInt64

def Val : Kind → Type
  | .map _ V .. => V
  | .array V _ => V
  | .keyToArray _ V .. => V

def Call : Kind → Type
  | .map K V .. => MapCall K V
  | .array V _ => ArrayCall V
  | .keyToArray κ V .. => KeyArrayCall κ V

/-- What a container of this kind stands for. -/
def State : Kind → Type
  | .map K V .. => Map K V
  | .array V _ => List V
  | .keyToArray κ V .. => κ → List V

def writes : (kind : Kind) → kind.Call → Bool
  | .map _ _ _ _, call => MapCall.writes call
  | .array .., call => ArrayCall.writes call
  | .keyToArray .., call => KeyArrayCall.writes call

def apply (w : Bool) : (kind : Kind) → Container kind.Key kind.Val → kind.Call →
    Answer kind.Val × Container kind.Key kind.Val
  | .map K V _ L, c, call => MapCall.apply (K := K) (V := V) w L c call
  | .array _ L, c, call => ArrayCall.apply w L c call
  | .keyToArray _ _ _ P toBuff fromBuff hbuff, c, call =>
      KeyArrayCall.apply P w (P.layout toBuff fromBuff hbuff) c call

def spec : (kind : Kind) → kind.State → kind.Call → Answer kind.Val × kind.State
  | .map K V _ _, m, call => MapCall.spec (K := K) (V := V) m call
  | .array .., l, call => ArrayCall.spec l call
  | .keyToArray _ _ _ _ _ _ _, f, call => KeyArrayCall.spec f call

def Allowed : (kind : Kind) → kind.State → kind.Call → Prop
  | .map .., _, _ => True
  | .array .., l, call => ArrayCall.Allowed l call
  | .keyToArray _ _ _ _ _ _ _, f, call => KeyArrayCall.Allowed f call

def init : (kind : Kind) → kind.State
  | .map K V _ _ => (∅ : Map K V)
  | .array .. => []
  | .keyToArray .. => fun _ => []

def Represents : (kind : Kind) → Container kind.Key kind.Val → kind.State → Prop
  | .map K V _ L, c, m => Stores (K := K) (V := V) L c m
  | .array _ L, c, l => StoresList L c l
  | .keyToArray _ _ _ P toBuff _ _, c, f => StoresLists P toBuff c f

theorem simulates (kind : Kind) :
    Simulates (kind.apply true) kind.spec kind.Allowed kind.Represents := by
  cases kind with
  | map K V decEq L => exact MapCall.simulates L
  | array V L => exact ArrayCall.simulates L
  | keyToArray κ V decEq P toBuff fromBuff hbuff => exact KeyArrayCall.simulates

theorem apply_of_not_writes (kind : Kind) {call : kind.Call} (h : kind.writes call = false)
    (w : Bool) (c : Container kind.Key kind.Val) : kind.apply w c call = kind.apply true c call := by
  cases kind with
  | map K V decEq L => cases (call : MapCall K V) <;> first | rfl | cases h
  | array V L => cases (call : ArrayCall V) <;> first | rfl | cases h
  | keyToArray κ V decEq P toBuff fromBuff hbuff =>
    cases (call : KeyArrayCall κ V) <;> first | rfl | cases h

theorem apply_isolated (kind : Kind) (w : Bool) (c : Container kind.Key kind.Val)
    (call : kind.Call) : (kind.apply w c call).2.isolated = c.isolated := by
  cases kind with
  | map K V decEq L => exact MapCall.apply_isolated w L c call
  | array V L => exact ArrayCall.apply_isolated w L c call
  | keyToArray κ V decEq P toBuff fromBuff hbuff => exact KeyArrayCall.apply_isolated P w _ c call

theorem represents_init (kind : Kind) : kind.Represents { db := ∅ } kind.init := by
  cases kind with
  | map K V decEq L => exact Stores.empty rfl (fun _ => rfl) rfl
  | array V L => exact ⟨∅, Stores.empty rfl (fun _ => rfl) rfl, .empty⟩
  | keyToArray κ V decEq P toBuff fromBuff hbuff =>
    refine ⟨fun k => ?_, fun k => ?_, fun q v hq => ?_⟩
    · exact Nat.two_pow_pos 64
    · simp [Container.getItemSize, init]
    · simp [init] at hq

theorem Represents.isolate {kind : Kind} {c : Container kind.Key kind.Val} {a : kind.State}
    (h : kind.Represents c a) (b : Bool) : kind.Represents { c with isolated := b } a := by
  cases kind with
  | map K V decEq L => exact ⟨h.keys, h.get, h.values, h.size⟩
  | array V L =>
    obtain ⟨m, h, hm⟩ := h
    exact ⟨m, ⟨h.keys, h.get, h.values, h.size⟩, hm⟩
  | keyToArray κ V decEq P toBuff fromBuff hbuff => exact ⟨h.lt, h.counter, h.item⟩

end Kind

section Database

variable {ι : Type} [DecidableEq ι] [Fintype ι] (kinds : ι → Kind)

/-- What a thread does to the database. No transaction is aborted. -/
inductive DbCall where
  | begin (readonly : Bool)
  | commit
  | call (i : ι) (c : (kinds i).Call)

/-- `threw` is an exception of `set_isolation_mode`, or a commit without a transaction. -/
inductive DbAnswer where
  | threw
  | done
  | answer (i : ι) (a : Answer (kinds i).Val)

variable {kinds}

def DbCall.apply (s : Accessor (fun i => (kinds i).Key) fun i => (kinds i).Val) :
    DbCall kinds → DbAnswer kinds × Accessor (fun i => (kinds i).Key) fun i => (kinds i).Val
  | .begin readonly =>
      match s.beginTransaction readonly with
      | none => (.threw, s)
      | some s' => (.done, s')
  | .commit =>
      match s.commitTransaction with
      | none => (.threw, s)
      | some s' => (.done, s')
  | .call i c =>
      let r := (kinds i).apply (hasWriterTxInStack s.transactionsStack) (s.bound i) c
      (.answer i r.1, { s with bound := Function.update s.bound i r.2 })

/-- The open transactions, `true` for a read-only one, and what the containers stand for. -/
structure DbState (kinds : ι → Kind) where
  opens : List Bool
  values : ∀ i, (kinds i).State

def DbState.init : DbState kinds := ⟨[], fun i => (kinds i).init⟩

def DbCall.spec (a : DbState kinds) : DbCall kinds → DbAnswer kinds × DbState kinds
  | .begin readonly => (.done, { a with opens := readonly :: a.opens })
  | .commit => (.done, { a with opens := a.opens.tail })
  | .call i c =>
      let r := (kinds i).spec (a.values i) c
      (.answer i r.1, { a with values := Function.update a.values i r.2 })

/-- A transaction is open when one is committed, and a write one when something is written. -/
def DbCall.Allowed (a : DbState kinds) : DbCall kinds → Prop
  | .begin _ => True
  | .commit => a.opens ≠ []
  | .call i c =>
      ((kinds i).writes c = true → hasWriterTxInStack a.opens = true) ∧
        (kinds i).Allowed (a.values i) c

structure DbRepresents (s : Accessor (fun i => (kinds i).Key) fun i => (kinds i).Val)
    (a : DbState kinds) : Prop where
  opens : s.transactionsStack = a.opens
  saved : s.saved.length = a.opens.length
  isolated : ∀ i, (s.bound i).isolated = hasWriterTxInStack a.opens
  values : ∀ i, (kinds i).Represents (s.bound i) (a.values i)

theorem DbCall.simulates :
    Simulates (fun s (c : DbCall kinds) => c.apply s) (fun a c => c.spec a) (fun a c => c.Allowed a)
      DbRepresents := by
  intro s a call h hallowed
  cases call with
  | begin readonly =>
    simp only [apply, spec, Accessor.beginTransaction, h.opens]
    split_ifs with hneed hiso
    · obtain ⟨hw, hwrite⟩ := hneed
      obtain rfl : readonly = false := by simpa using hwrite
      refine ⟨rfl, rfl, ?_, fun i => rfl, fun i => (h.values i).isolate true⟩
      exact congrArg (· + 1) h.saved
    · refine absurd (fun i => ?_) hiso
      rw [h.isolated]
      simpa using hneed.1
    · refine ⟨rfl, rfl, congrArg (· + 1) h.saved, fun i => ?_, h.values⟩
      rw [hasWriterTxInStack_cons]
      refine (h.isolated i).trans ?_
      cases hw : hasWriterTxInStack a.opens <;> cases readonly <;> simp_all
  | commit =>
    obtain ⟨stack, saved, bound⟩ := s
    obtain ⟨opens, values⟩ := a
    obtain rfl := h.opens
    have hlen := h.saved
    cases stack with
    | nil => exact absurd rfl hallowed
    | cons readonly stack =>
      cases saved with
      | nil => simp at hlen
      | cons db saved =>
        simp only [List.length_cons, Nat.add_right_cancel_iff] at hlen
        simp only [apply, spec, Accessor.commitTransaction, List.tail_cons]
        split_ifs with hlast hiso
        · exact ⟨rfl, rfl, hlen, fun i => (by simpa using hlast.2 : _ = false).symm,
            fun i => (h.values i).isolate false⟩
        · refine absurd (fun i => ?_) hiso
          rw [h.isolated, hasWriterTxInStack_cons]
          simp [hlast.1]
        · refine ⟨rfl, rfl, hlen, fun i => ?_, h.values⟩
          -- the transaction only read, or an outer one writes
          refine (h.isolated i).trans ?_
          simp only [hasWriterTxInStack_cons]
          cases hw : hasWriterTxInStack stack <;> cases readonly <;> simp_all
  | call i c =>
    obtain ⟨hwrites, hallowed⟩ := hallowed
    have happly : (kinds i).apply (hasWriterTxInStack a.opens) (s.bound i) c =
        (kinds i).apply true (s.bound i) c := by
      cases hw : (kinds i).writes c with
      | true => rw [hwrites hw]
      | false => exact (kinds i).apply_of_not_writes hw _ _
    obtain ⟨hans, hnext⟩ := (kinds i).simulates _ _ c (h.values i) hallowed
    simp only [apply, spec, h.opens, happly]
    refine ⟨congrArg _ hans, rfl, h.saved, fun j => ?_, fun j => ?_⟩
    · rcases eq_or_ne j i with rfl | hne
      · simp only [Function.update_self, Kind.apply_isolated, h.isolated]
      · simp only [Function.update_of_ne hne, h.isolated]
    · rcases eq_or_ne j i with rfl | hne
      · simpa only [Function.update_self] using hnext
      · simpa only [Function.update_of_ne hne] using h.values j

omit [DecidableEq ι] [Fintype ι] in
theorem dbRepresents_opened :
    DbRepresents (Accessor.opened fun _ => ∅) (DbState.init : DbState kinds) :=
  ⟨rfl, rfl, fun _ => rfl, fun i => (kinds i).represents_init⟩

/-- Over committed transactions every accessor of a database answers like what it stands for: a finite
map, a list, or a list under each key. -/
theorem accessors_refine (kinds : ι → Kind) (calls : List (DbCall kinds))
    (h : AllowedRun (fun a c => c.spec a) (fun a c => c.Allowed a) DbState.init calls) :
    answers (fun s (c : DbCall kinds) => c.apply s) (Accessor.opened fun _ => ∅) calls =
      answers (fun a (c : DbCall kinds) => c.spec a) DbState.init calls :=
  answers_eq DbCall.simulates dbRepresents_opened h

end Database

/-- Keys of eight bytes. -/
def uint64Key : PodKey UInt64 where
  bytes k := podBytes 8 k.toNat
  sizeof := 8
  length_bytes k := by simp
  bytes_injective := podBytes_injective

theorem stored_blob (v : Blob) : some v = some v := rfl

/-- An array and a container of arrays. -/
def sampleKinds : Bool → Kind
  | true => .array Blob arrayLayout
  | false => .keyToArray UInt64 Blob inferInstance uint64Key (fun v => v) some stored_blob

def samplePushes : List (DbCall sampleKinds) :=
  [.begin false, .call true (ArrayCall.pushBack [7]), .call false (KeyArrayCall.pushBackItem 3 [8]),
    .call true ArrayCall.popBack, .call true (ArrayCall.pushBack [9]), .commit,
    .call true ArrayCall.back, .call false (KeyArrayCall.getItemSize 4),
    .call false (KeyArrayCall.getSubitem 3 0)]

theorem accessors_refine_samplePushes :
    answers (fun s (c : DbCall sampleKinds) => c.apply s) (Accessor.opened fun _ => ∅) samplePushes =
      [.done, .answer true .done, .answer false .done, .answer true .done, .answer true .done, .done,
        .answer true (.value (some [9])), .answer false (.count 0),
        .answer false (.value (some [8]))] := by
  refine (accessors_refine sampleKinds samplePushes ?_).trans rfl
  have hfits : 0 + 1 < 2 ^ 64 := by decide
  exact ⟨trivial, ⟨fun _ => rfl, hfits⟩, ⟨fun _ => rfl, hfits⟩, ⟨fun _ => rfl, List.cons_ne_nil _ _⟩,
    ⟨fun _ => rfl, hfits⟩, List.cons_ne_nil _ _, ⟨nofun, trivial⟩, ⟨nofun, trivial⟩, ⟨nofun, trivial⟩,
    trivial⟩

end Boolberry.Db
