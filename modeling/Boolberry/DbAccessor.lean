import Mathlib.Data.Fintype.Basic
import Boolberry.Lib.FiniteMap
import Boolberry.Basic

/-!
# Database containers

`db_abstract_accessor.h` over a backend that maps byte strings to byte strings:
containers with a size cache and, for some, a value cache, bound to an accessor
that keeps the stack of transactions of one thread. Writes reach the backend only
inside a write transaction; elsewhere its calls fail and their answers are not
looked at.
-/

namespace Boolberry.Db
open KeyValue

/-- `cache_base`. A node of the list has an identity, which the data keep as an iterator; a key that
is set twice has two nodes. -/
structure CacheBase (K V : Type) where
  macAllowedElements : ℕ := 10000
  mostRecetAcessed : List (ℕ × K) := []
  data : Map K (V × ℕ) := ∅
  nextNode : ℕ := 0

namespace CacheBase

variable {K V : Type} [DecidableEq K]

def get (c : CacheBase K V) (k : K) : Option V × CacheBase K V :=
  match c.data.get k with
  | none => (none, c)
  | some (v, node) =>
      -- the node is spliced to the front
      (some v, { c with mostRecetAcessed := c.mostRecetAcessed.filter (·.1 = node) ++
        c.mostRecetAcessed.filter (·.1 ≠ node) })

/-- The loop takes nodes off the back until there are no more than allowed. -/
def trim (c : CacheBase K V) : CacheBase K V :=
  { c with
    mostRecetAcessed := c.mostRecetAcessed.take c.macAllowedElements
    data := c.data.eraseAll ((c.mostRecetAcessed.drop c.macAllowedElements).reverse.map (·.2)) }

def set (c : CacheBase K V) (k : K) (v : V) : CacheBase K V :=
  trim { c with
    mostRecetAcessed := (c.nextNode, k) :: c.mostRecetAcessed
    data := c.data.set k (v, c.nextNode)
    nextNode := c.nextNode + 1 }

def clear (c : CacheBase K V) : CacheBase K V := { c with mostRecetAcessed := [], data := ∅ }

def erase (c : CacheBase K V) (k : K) : CacheBase K V :=
  match c.data.get k with
  | none => c
  | some (_, node) =>
      { c with
        mostRecetAcessed := c.mostRecetAcessed.filter (·.1 ≠ node)
        data := c.data.erase k }

end CacheBase

/-- How a container turns keys and values into bytes, and whether it is a
`cached_key_value_accessor`. -/
structure Layout (K V : Type) where
  keyToPtr : K → Blob
  toBuff : V → Blob
  fromBuff : Blob → Option V
  cached : Bool
  keyToPtr_injective : Function.Injective keyToPtr
  fromBuff_toBuff : ∀ v, fromBuff (toBuff v) = some v

/-- A container with its part `db` of the backend. `isolated` says that a writer thread is set. -/
structure Container (K V : Type) where
  db : Map Blob Blob
  sizeCache : UInt64 := 0
  sizeCacheValid : Bool := false
  isolated : Bool := false
  mCache : CacheBase K V := {}

/-- `size` of the backend. -/
def entries (db : Map Blob Blob) : UInt64 := UInt64.ofNat db.keys.card

namespace Container

variable {K V : Type} [DecidableEq K]

def size (c : Container K V) : UInt64 × Container K V :=
  if c.sizeCacheValid then (c.sizeCache, c)
  else (entries c.db, { c with sizeCache := entries c.db, sizeCacheValid := true })

/-- `basic_key_value_accessor::get`. -/
def baseGet (L : Layout K V) (c : Container K V) (k : K) : Option V :=
  (c.db.get (L.keyToPtr k)).bind L.fromBuff

def get (L : Layout K V) (c : Container K V) (k : K) : Option V × Container K V :=
  if L.cached then
    match c.mCache.get k with
    | (some v, cache) => (some v, { c with mCache := cache })
    | (none, cache) =>
        match c.baseGet L k with
        | some v => (some v, { c with mCache := cache.set k v })
        | none => (none, { c with mCache := cache })
  else (c.baseGet L k, c)

/-- A write to the backend and the end of the cached size; `w` says that a write transaction is
open. -/
def write (w : Bool) (c : Container K V) (f : Map Blob Blob → Map Blob Blob) : Container K V :=
  { c with db := if w then f c.db else c.db, sizeCacheValid := false }

def mapCache (L : Layout K V) (c : Container K V) (f : CacheBase K V → CacheBase K V) :
    Container K V :=
  if L.cached then { c with mCache := f c.mCache } else c

def set (w : Bool) (L : Layout K V) (c : Container K V) (k : K) (v : V) : Container K V :=
  (c.write w (·.set (L.keyToPtr k) (L.toBuff v))).mapCache L (·.set k v)

/-- `explicit_set`, which goes past the value cache. -/
def explicitSet (w : Bool) (c : Container K V) (k v : Blob) : Container K V :=
  c.write w (·.set k v)

def erase (w : Bool) (L : Layout K V) (c : Container K V) (k : K) : Container K V :=
  (c.write w (·.erase (L.keyToPtr k))).mapCache L (·.erase k)

def eraseValidate (w : Bool) (L : Layout K V) (c : Container K V) (k : K) :
    Bool × Container K V :=
  ((c.baseGet L k).isSome, c.erase w L k)

def clear (w : Bool) (L : Layout K V) (c : Container K V) : Container K V :=
  (c.mapCache L CacheBase.clear).write w fun _ => ∅

def pushBack {V : Type} (w : Bool) (L : Layout UInt64 V) (c : Container UInt64 V) (v : V) :
    Container UInt64 V :=
  let r := c.size
  r.2.set w L r.1 v

def popBack {V : Type} (w : Bool) (L : Layout UInt64 V) (c : Container UInt64 V) :
    Container UInt64 V :=
  let r := c.size
  r.2.erase w L (r.1 - 1)

def onWriteTransactionBegin (c : Container K V) : Container K V := { c with isolated := true }

def onWriteTransactionCommit (c : Container K V) : Container K V := { c with isolated := false }

/-- The override of `cached_key_value_accessor` drops the values; the size is left. -/
def onWriteTransactionAbort (L : Layout K V) (c : Container K V) : Container K V :=
  { c.mapCache L CacheBase.clear with isolated := false }

end Container

/-- A read or a write of one container; arrays have two more. -/
inductive Op : Type → Type → Type 1
  | set {K V : Type} (k : K) (v : V) : Op K V
  | get {K V : Type} (k : K) : Op K V
  | erase {K V : Type} (k : K) : Op K V
  | eraseValidate {K V : Type} (k : K) : Op K V
  | clear {K V : Type} : Op K V
  | size {K V : Type} : Op K V
  | explicitSet {K V : Type} (k v : Blob) : Op K V
  | pushBack {V : Type} (v : V) : Op UInt64 V
  | popBack {V : Type} : Op UInt64 V

/-- What an operation leaves behind. -/
def Op.apply {K V : Type} [h : DecidableEq K] (w : Bool) (L : Layout K V) (c : Container K V)
    (op : Op K V) : Container K V :=
  match K, V, op, h, L, c with
  | _, _, .set k v, _, L, c => c.set w L k v
  | _, _, .get k, _, L, c => (c.get L k).2
  | _, _, .erase k, _, L, c => c.erase w L k
  | _, _, .eraseValidate k, _, L, c => (c.eraseValidate w L k).2
  | _, _, .clear, _, L, c => c.clear w L
  | _, _, .size, _, _, c => c.size.2
  | _, _, .explicitSet k v, _, _, c => c.explicitSet w k v
  | _, _, .pushBack v, _, L, c => c.pushBack w L v
  | _, _, .popBack, _, L, c => c.popBack w L

section Accessor

variable {ι : Type} [DecidableEq ι] [Fintype ι] {K V : ι → Type}

/-- `basic_db_accessor` on one thread: `true` on the stack is a read-only transaction, and `saved`
holds what the backend returns to when a transaction is aborted. -/
structure Accessor (K V : ι → Type) where
  transactionsStack : List Bool
  saved : List (ι → Map Blob Blob)
  bound : ∀ i, Container (K i) (V i)

def hasWriterTxInStack (ve : List Bool) : Bool := ve.any (!·)

/-- A freshly opened database. -/
def Accessor.opened (db : ι → Map Blob Blob) : Accessor K V :=
  { transactionsStack := [], saved := [], bound := fun i => { db := db i } }

namespace Accessor

/-- `none` when `set_isolation_mode` throws. -/
def beginTransaction (s : Accessor K V) (readonly : Bool) : Option (Accessor K V) :=
  let needToBrodcstWriterTx := !hasWriterTxInStack s.transactionsStack
  let s' : Accessor K V := { s with
    transactionsStack := readonly :: s.transactionsStack
    saved := (fun i => (s.bound i).db) :: s.saved }
  if needToBrodcstWriterTx ∧ !readonly then
    if ∀ i, (s.bound i).isolated = false then
      some { s' with bound := fun i => (s.bound i).onWriteTransactionBegin }
    else none
  else some s'

def commitTransaction (s : Accessor K V) : Option (Accessor K V) :=
  match s.transactionsStack, s.saved with
  | readonly :: stack, _ :: saved =>
      let s' : Accessor K V := { s with transactionsStack := stack, saved := saved }
      if !readonly ∧ !hasWriterTxInStack stack then
        if ∀ i, (s.bound i).isolated = true then
          some { s' with bound := fun i => (s.bound i).onWriteTransactionCommit }
        else none
      else some s'
  | _, _ => none

/-- The backend is rolled back first; the containers hear of it when no writer is left. -/
def abortTransaction (L : ∀ i, Layout (K i) (V i)) (s : Accessor K V) : Option (Accessor K V) :=
  match s.transactionsStack, s.saved with
  | false :: stack, db :: saved =>
      let s' : Accessor K V := { s with
        transactionsStack := stack
        saved := saved
        bound := fun i => { s.bound i with db := db i } }
      if hasWriterTxInStack stack then some s'
      else if ∀ i, (s.bound i).isolated = true then
        some { s' with bound := fun i => (s'.bound i).onWriteTransactionAbort (L i) }
      else none
  | _, _ => none

variable [∀ i, DecidableEq (K i)] (L : ∀ i, Layout (K i) (V i))

def apply (s : Accessor K V) (op : Σ i, Op (K i) (V i)) : Accessor K V :=
  let c := op.2.apply (hasWriterTxInStack s.transactionsStack) (L op.1) (s.bound op.1)
  { s with bound := Function.update s.bound op.1 c }

def run (s : Accessor K V) (ops : List (Σ i, Op (K i) (V i))) : Accessor K V :=
  ops.foldl (apply L) s

/-- `get` of a container, as a caller sees it. -/
def get (s : Accessor K V) (i : ι) (k : K i) : Option (V i) := ((s.bound i).get (L i) k).1

def size (s : Accessor K V) (i : ι) : UInt64 := (s.bound i).size.1

end Accessor

end Accessor

end Boolberry.Db
