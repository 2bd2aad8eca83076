import Boolberry.Basic

/-!
# Transactions of the LMDB backend

A thread's transactions form a list. A read-only one inside another is only a count
on the innermost entry, a write one is an entry of its own that holds the exclusive
lock once more.
-/

namespace Boolberry.Lmdb

/-- `tx_entry`. A transaction of LMDB is named by its place among those begun. -/
structure TxEntry where
  ptx : ℕ
  readOnly : Bool
  count : ℕ

/-- `lmdb_db_backend` as one thread sees it, and what LMDB has seen. -/
structure Backend where
  /-- `m_penv` is set, that is, the database is open. -/
  penv : Bool
  /-- The list of this thread in `m_txs`, its back first. -/
  txs : List TxEntry
  /-- The `lock()` calls on `m_write_exclusive_lock` less the `unlock()` calls. Below zero a lock was
  released that the thread does not hold. -/
  lockDepth : ℤ
  /-- Parent and `MDB_RDONLY` of each transaction that `mdb_txn_begin` gave. -/
  begun : List (Option ℕ × Bool)
  /-- The transactions given to `mdb_txn_commit` and `mdb_txn_abort`; both free them, a failed commit
  too. -/
  ended : List ℕ

namespace Backend

def opened : Backend := ⟨true, [], 0, [], []⟩

/-- `mdb_txn_begin` and what `begin_transaction` does with its result; `false` is the throw. -/
def mdbTxnBegin (s : Backend) (ok readOnly : Bool) (pparentTx : Option ℕ) : Bool × Backend :=
  if ok then
    (true, { s with
      begun := s.begun ++ [(pparentTx, readOnly)]
      txs := ⟨s.begun.length, readOnly, if readOnly then 1 else 0⟩ :: s.txs })
  else
    -- the lock is released here for a read-only transaction too
    (false, { s with lockDepth := s.lockDepth - 1 })

/-- `begin_transaction`; `ok` is what `mdb_txn_begin` does if it is called, and the result is `false`
when the call throws. -/
def beginTransaction (s : Backend) (readOnly ok : Bool) : Bool × Backend :=
  let s := if readOnly then s else { s with lockDepth := s.lockDepth + 1 }
  if !s.penv then (false, s)
  else
    match s.txs with
    | [] => s.mdbTxnBegin ok readOnly none
    | e :: l =>
        if readOnly then (true, { s with txs := { e with count := e.count + 1 } :: l })
        else s.mdbTxnBegin ok readOnly (if e.readOnly then none else some e.ptx)

def popTxEntry (s : Backend) : Option (TxEntry × Backend) :=
  match s.txs with
  | [] => none
  | e :: l =>
      some (e, { s with txs :=
        if (e.readOnly && decide (e.count < 2)) || (!e.readOnly && decide (e.count < 1)) then l
        else { e with count := e.count - 1 } :: l })

/-- `commit_transaction`; `ok` is what `mdb_txn_commit` does if it is called. -/
def commitTransaction (s : Backend) (ok : Bool) : Bool × Backend :=
  match s.popTxEntry with
  | none => (false, s)
  | some (txe, s) =>
      if decide (txe.count = 0) || (txe.readOnly && decide (txe.count = 1)) then
        let s := { s with ended := s.ended ++ [txe.ptx] }
        if !ok then (false, s)
        else if !txe.readOnly && decide (txe.count = 0) then
          (true, { s with lockDepth := s.lockDepth - 1 })
        else (true, s)
      else (true, s)

def abortTransaction (s : Backend) : Backend :=
  match s.popTxEntry with
  | none => s
  | some (txe, s) =>
      if decide (txe.count = 0) || (txe.readOnly && decide (txe.count = 1)) then
        let s := { s with ended := s.ended ++ [txe.ptx] }
        if !txe.readOnly && decide (txe.count = 0) then { s with lockDepth := s.lockDepth - 1 } else s
      else s

end Backend

inductive Call where
  | begin (readOnly ok : Bool)
  | commit (ok : Bool)
  | abort
  deriving DecidableEq

/-- The backend, and the transactions the thread has begun and not yet ended: their `read_only`, the
last one first. -/
structure Thread where
  db : Backend
  opens : List Bool

def Thread.opened : Thread := ⟨.opened, []⟩

/-- The open write transactions. -/
def Thread.writes (t : Thread) : ℕ := t.opens.countP (!·)

/-- A call; `none` ends a transaction that was not begun. A commit that fails has ended its transaction,
a begin that throws has begun none. -/
def Thread.step (t : Thread) : Call → Option Thread
  | .begin readOnly ok =>
      let r := t.db.beginTransaction readOnly ok
      some ⟨r.2, if r.1 then readOnly :: t.opens else t.opens⟩
  | .commit ok =>
      match t.opens with
      | [] => none
      | _ :: l => some ⟨(t.db.commitTransaction ok).2, l⟩
  | .abort =>
      match t.opens with
      | [] => none
      | _ :: l => some ⟨t.db.abortTransaction, l⟩

/-- The calls are properly nested when this is not `none`. -/
def Thread.run : Thread → List Call → Option Thread
  | t, [] => some t
  | t, c :: l =>
      match t.step c with
      | none => none
      | some t' => t'.run l

/-- The transactions an entry stands for, the last one first. -/
def TxEntry.opens (e : TxEntry) : List Bool :=
  List.replicate e.count true ++ if e.readOnly then [] else [false]

/-- The entries stand for the open transactions. A read-only entry is the outermost one. -/
structure Mirrors (txs : List TxEntry) (opens : List Bool) : Prop where
  opens : opens = txs.flatMap TxEntry.opens
  count : ∀ e ∈ txs, e.readOnly = true → 1 ≤ e.count
  outermost : ∀ e l, e :: l <:+ txs → e.readOnly = true → l = []

/-- No transaction is both open and ended, or ended twice, and none is forgotten. -/
def EndedOnce (t : Thread) : Prop :=
  (∀ id, t.db.ended.count id + (t.db.txs.map TxEntry.ptx).count id =
    if id < t.db.begun.length then 1 else 0) ∧
  (t.opens = [] → t.db.txs = [])

/-- Ending a read-only transaction inside another one ends nothing of LMDB. -/
def ReadersNested (t : Thread) : Prop :=
  ∀ outer l, t.opens = true :: outer :: l → ∀ c t', (c = .abort ∨ ∃ ok, c = .commit ok) →
    t.step c = some t' → t'.opens = outer :: l ∧ t'.db.ended = t.db.ended ∧
      t'.db.txs.map TxEntry.ptx = t.db.txs.map TxEntry.ptx

/-- The calls after which the lock is not what it should be: a read-only begin that fails outside every
transaction, and a commit that fails for a write transaction. -/
def Slip (t : Thread) (c : Call) : Prop :=
  (c = .begin true false ∧ t.opens = []) ∨ (c = .commit false ∧ t.opens.head? = some false)

theorem Mirrors.tail {e : TxEntry} {l : List TxEntry} {opens : List Bool}
    (h : Mirrors (e :: l) opens) : Mirrors l (l.flatMap TxEntry.opens) :=
  ⟨rfl, fun e' he' => h.count e' (List.mem_cons_of_mem _ he'), fun e' l' hs =>
    h.outermost e' l' (hs.trans (List.suffix_cons e l))⟩

theorem Mirrors.eq_nil_iff {txs : List TxEntry} {opens : List Bool} (h : Mirrors txs opens) :
    opens = [] ↔ txs = [] := by
  constructor
  · intro hnil
    cases txs with
    | nil => rfl
    | cons e l =>
      have hopens := h.opens
      rw [hnil, List.flatMap_cons] at hopens
      have he := (List.append_eq_nil_iff.mp hopens.symm).1
      unfold TxEntry.opens at he
      rw [List.append_eq_nil_iff, List.replicate_eq_nil_iff] at he
      cases hr : e.readOnly with
      | true =>
        have := h.count e (by simp) hr
        omega
      | false => simp [hr] at he
  · rintro rfl
    exact h.opens

/-- What an entry loses when its last transaction ends is the entry itself, or a nested reader. -/
theorem Mirrors.pop {e : TxEntry} {l : List TxEntry} {last : Bool} {opens : List Bool}
    (h : Mirrors (e :: l) (last :: opens)) :
    (last = true ∧ opens ≠ [] ∧ e.count ≠ 0 ∧ (e.readOnly = true → 2 ≤ e.count) ∧
      Mirrors ({ e with count := e.count - 1 } :: l) opens) ∨
    (last = e.readOnly ∧ e.count = (if e.readOnly then 1 else 0) ∧ Mirrors l opens ∧
      (last = true → opens = [])) := by
  obtain ⟨ptx, readOnly, count⟩ := e
  have hopens := h.opens
  rw [List.flatMap_cons] at hopens
  have hcount := h.count _ (by simp : (⟨ptx, readOnly, count⟩ : TxEntry) ∈ _ :: l)
  have houter := h.outermost _ l List.suffix_rfl
  have htail : l.flatMap TxEntry.opens = opens → Mirrors l opens := fun heq => heq ▸ h.tail
  -- the entry one count down, as long as it stays
  have hdown (k : ℕ) (hk : count = k + 1) (hr : readOnly = true → 1 ≤ k)
      (ho : opens = (⟨ptx, readOnly, k⟩ :: l : List TxEntry).flatMap TxEntry.opens) :
      Mirrors (⟨ptx, readOnly, count - 1⟩ :: l) opens := by
    subst hk
    refine ⟨ho, ?_, ?_⟩
    · intro e' he' hr'
      rcases List.mem_cons.mp he' with rfl | he'
      · exact hr hr'
      · exact h.tail.count e' he' hr'
    · intro e' l' hs hr'
      rcases List.suffix_cons_iff.mp hs with heq | hs
      · obtain ⟨rfl, rfl⟩ := List.cons.inj heq
        exact houter hr'
      · exact h.tail.outermost e' l' hs hr'
  cases readOnly with
  | true =>
    have hl := houter rfl
    have hpos := hcount rfl
    subst hl
    obtain ⟨k, rfl⟩ : ∃ k, count = k + 1 := ⟨count - 1, by simp at hpos; omega⟩
    simp only [TxEntry.opens, List.replicate_succ, if_true, List.append_nil, List.flatMap_nil,
      List.cons.injEq] at hopens
    obtain ⟨rfl, rfl⟩ := hopens
    cases k with
    | zero => exact Or.inr ⟨rfl, rfl, htail rfl, fun _ => rfl⟩
    | succ k =>
      refine Or.inl ⟨rfl, by simp, by simp, fun _ => by simp, hdown (k + 1) rfl (by simp) ?_⟩
      simp [TxEntry.opens]
  | false =>
    cases count with
    | zero =>
      simp only [TxEntry.opens, List.replicate_zero, Bool.false_eq_true, if_false, List.nil_append,
        List.cons_append, List.cons.injEq] at hopens
      obtain ⟨rfl, rfl⟩ := hopens
      exact Or.inr ⟨rfl, rfl, htail rfl, by simp⟩
    | succ k =>
      simp only [TxEntry.opens, List.replicate_succ, Bool.false_eq_true, if_false,
        List.cons_append, List.cons.injEq] at hopens
      obtain ⟨rfl, rfl⟩ := hopens
      refine Or.inl ⟨rfl, by simp, by simp, by simp, hdown k rfl (by simp) ?_⟩
      simp [TxEntry.opens]

/-- An end without a count on the entry ends the transaction, else it takes one off the count. -/
theorem end_eq {s : Backend} {e : TxEntry} {l : List TxEntry} {last : Bool} {opens : List Bool}
    (hs : s.txs = e :: l) (h : Mirrors s.txs (last :: opens)) :
    (last = true ∧ opens ≠ [] ∧ Mirrors ({ e with count := e.count - 1 } :: l) opens ∧
      s.abortTransaction = { s with txs := { e with count := e.count - 1 } :: l } ∧
      ∀ ok, (s.commitTransaction ok).2 = { s with txs := { e with count := e.count - 1 } :: l }) ∨
    ((last = true → opens = []) ∧ Mirrors l opens ∧
      s.abortTransaction = { s with
        txs := l, ended := s.ended ++ [e.ptx]
        lockDepth := s.lockDepth - if last then 0 else 1 } ∧
      ∀ ok, (s.commitTransaction ok).2 = { s with
        txs := l, ended := s.ended ++ [e.ptx]
        lockDepth := s.lockDepth - if last || !ok then 0 else 1 }) := by
  rw [hs] at h
  rcases h.pop with ⟨rfl, hne, hcount, hreader, hm⟩ | ⟨rfl, hcount, hm, hnil⟩
  · have hstay : ((e.readOnly && decide (e.count < 2)) || (!e.readOnly && decide (e.count < 1))) =
        false := by
      cases hr : e.readOnly with
      | true =>
        have htwo := hreader hr
        simp only [Bool.true_and, Bool.not_true, Bool.false_and, Bool.or_false, decide_eq_false_iff_not]
        omega
      | false => simpa [hr] using hcount
    have hkeep : (decide (e.count = 0) || (e.readOnly && decide (e.count = 1))) = false := by
      cases hr : e.readOnly with
      | true =>
        have := hreader hr
        simp only [hcount, decide_false, Bool.true_and, Bool.false_or, decide_eq_false_iff_not]
        omega
      | false => simp [hcount]
    have hpop : s.popTxEntry = some (e, { s with txs := { e with count := e.count - 1 } :: l }) := by
      simp only [Backend.popTxEntry, hs, hstay, Bool.false_eq_true, if_false]
    refine Or.inl ⟨rfl, hne, hm, ?_, fun ok => ?_⟩
    · simp only [Backend.abortTransaction, hpop, hkeep, Bool.false_eq_true, if_false]
    · simp only [Backend.commitTransaction, hpop, hkeep, Bool.false_eq_true, if_false]
  · refine Or.inr ⟨hnil, hm, ?_⟩
    cases hr : e.readOnly with
    | true =>
      rw [hr, if_pos rfl] at hcount
      have hpop : s.popTxEntry = some (e, { s with txs := l }) := by
        simp [Backend.popTxEntry, hs, hr, hcount]
      refine ⟨?_, fun ok => ?_⟩
      · simp [Backend.abortTransaction, hpop, hr, hcount]
      · cases ok <;> simp [Backend.commitTransaction, hpop, hr, hcount]
    | false =>
      rw [hr, if_neg (by simp)] at hcount
      have hpop : s.popTxEntry = some (e, { s with txs := l }) := by
        simp [Backend.popTxEntry, hs, hr, hcount]
      refine ⟨?_, fun ok => ?_⟩
      · simp [Backend.abortTransaction, hpop, hr, hcount]
      · cases ok <;> simp [Backend.commitTransaction, hpop, hr, hcount]

/-- What holds in every state of a properly nested run. -/
structure Inv (t : Thread) : Prop where
  penv : t.db.penv = true
  mirrors : Mirrors t.db.txs t.opens
  ended : ∀ id, t.db.ended.count id + (t.db.txs.map TxEntry.ptx).count id =
    if id < t.db.begun.length then 1 else 0

/-- The locks held beyond the open write transactions. -/
def lockGap (t : Thread) : ℤ := t.db.lockDepth - t.writes

theorem inv_opened : Inv Thread.opened :=
  ⟨rfl, ⟨rfl, by simp [Thread.opened, Backend.opened], by simp [Thread.opened, Backend.opened]⟩,
    by simp [Thread.opened, Backend.opened]⟩

theorem lockGap_opened : lockGap Thread.opened = 0 := rfl

theorem Inv.mdbTxnBegin {t : Thread} (h : Inv t) {readOnly : Bool} (pparentTx : Option ℕ)
    {depth : ℤ} (hr : readOnly = true → t.db.txs = []) :
    Inv ⟨({ t.db with lockDepth := depth }.mdbTxnBegin true readOnly pparentTx).2,
      readOnly :: t.opens⟩ := by
  refine ⟨h.penv, ⟨?_, ?_, ?_⟩, fun id => ?_⟩
  · cases readOnly <;> simp [Backend.mdbTxnBegin, TxEntry.opens, h.mirrors.opens]
  · intro e he hre
    rcases List.mem_cons.mp he with rfl | he
    · simp only at hre
      simp [hre]
    · exact h.mirrors.count e he hre
  · intro e l hs hre
    rcases List.suffix_cons_iff.mp hs with heq | hs
    · obtain ⟨rfl, rfl⟩ := List.cons.inj heq
      exact hr hre
    · exact h.mirrors.outermost e l hs hre
  · have hid := h.ended id
    simp only [Backend.mdbTxnBegin, if_true, List.map_cons, List.count_cons, List.length_append,
      List.length_singleton, beq_iff_eq]
    -- the new handle is the next number, which nothing had before
    split_ifs at hid ⊢ <;> omega

theorem Inv.nestedReader {t : Thread} (h : Inv t) {e : TxEntry} {l : List TxEntry}
    (hs : t.db.txs = e :: l) :
    Inv ⟨{ t.db with txs := { e with count := e.count + 1 } :: l }, true :: t.opens⟩ := by
  have hm := h.mirrors
  rw [hs] at hm
  refine ⟨h.penv, ⟨?_, ?_, ?_⟩, fun id => ?_⟩
  · rw [hm.opens]
    simp [TxEntry.opens, List.replicate_succ]
  · intro e' he' hr
    rcases List.mem_cons.mp he' with rfl | he'
    · simp
    · exact hm.tail.count e' he' hr
  · intro e' l' hsuffix hr
    rcases List.suffix_cons_iff.mp hsuffix with heq | hsuffix
    · obtain ⟨rfl, rfl⟩ := List.cons.inj heq
      exact hm.outermost e l' List.suffix_rfl hr
    · exact hm.tail.outermost e' l' hsuffix hr
  · have hid := h.ended id
    rw [hs] at hid
    simpa using hid

theorem begin_inv {t t' : Thread} {readOnly ok : Bool} (h : Inv t)
    (hstep : t.step (.begin readOnly ok) = some t') :
    Inv t' ∧ (lockGap t' = lockGap t ↔ ¬Slip t (.begin readOnly ok)) := by
  obtain rfl := Option.some.inj hstep
  have hnil := h.mirrors.eq_nil_iff
  -- the first transaction of the thread, or one nested in what is open
  cases htxs : t.db.txs with
  | nil =>
    have hopens := hnil.mpr htxs
    cases ok with
    | true =>
      cases readOnly with
      | true =>
        have hb : t.db.beginTransaction true true = t.db.mdbTxnBegin true true none := by
          simp [Backend.beginTransaction, h.penv, htxs]
        rw [hb]
        refine ⟨h.mdbTxnBegin none fun _ => htxs, ?_⟩
        simp [lockGap, Thread.writes, Backend.mdbTxnBegin, Slip]
      | false =>
        have hb : t.db.beginTransaction false true =
            { t.db with lockDepth := t.db.lockDepth + 1 }.mdbTxnBegin true false none := by
          simp [Backend.beginTransaction, h.penv, htxs]
        rw [hb]
        refine ⟨h.mdbTxnBegin none (by simp), ?_⟩
        simp [lockGap, Thread.writes, Backend.mdbTxnBegin, Slip]
    | false =>
      have hb : t.db.beginTransaction readOnly false = (false, { t.db with
          lockDepth := t.db.lockDepth - if readOnly then 1 else 0 }) := by
        cases readOnly <;> simp [Backend.beginTransaction, Backend.mdbTxnBegin, h.penv, htxs]
      rw [hb]
      refine ⟨⟨h.penv, h.mirrors, h.ended⟩, ?_⟩
      cases readOnly <;> simp [lockGap, Thread.writes, Slip, hopens]
  | cons e l =>
    have hopens : t.opens ≠ [] := fun ho => by simp [hnil.mp ho] at htxs
    cases readOnly with
    | true =>
      have hb : t.db.beginTransaction true ok =
          (true, { t.db with txs := { e with count := e.count + 1 } :: l }) := by
        simp [Backend.beginTransaction, h.penv, htxs]
      rw [hb]
      refine ⟨h.nestedReader htxs, ?_⟩
      simp [lockGap, Thread.writes, Slip, hopens]
    | false =>
      have hb : t.db.beginTransaction false ok =
          { t.db with lockDepth := t.db.lockDepth + 1 }.mdbTxnBegin ok false
            (if e.readOnly then none else some e.ptx) := by
        simp [Backend.beginTransaction, h.penv, htxs]
      rw [hb]
      cases ok with
      | true =>
        refine ⟨h.mdbTxnBegin _ (by simp), ?_⟩
        simp [lockGap, Thread.writes, Backend.mdbTxnBegin, Slip]
      | false =>
        refine ⟨⟨h.penv, h.mirrors, h.ended⟩, ?_⟩
        simp [lockGap, Thread.writes, Backend.mdbTxnBegin, Slip]

theorem Inv.ended_one {t : Thread} (h : Inv t) {e : TxEntry} {l : List TxEntry} {opens : List Bool}
    {depth : ℤ} (hs : t.db.txs = e :: l) (hm : Mirrors l opens) :
    Inv ⟨{ t.db with txs := l, ended := t.db.ended ++ [e.ptx], lockDepth := depth }, opens⟩ := by
  refine ⟨h.penv, hm, fun id => ?_⟩
  have hid := h.ended id
  rw [hs, List.map_cons, List.count_cons] at hid
  change (t.db.ended ++ [e.ptx]).count id + (l.map TxEntry.ptx).count id = _
  rw [List.count_append, List.count_singleton, ← hid]
  omega

theorem end_inv {t t' : Thread} {c : Call} (h : Inv t) (hc : c = .abort ∨ ∃ ok, c = .commit ok)
    (hstep : t.step c = some t') : Inv t' ∧ (lockGap t' = lockGap t ↔ ¬Slip t c) := by
  obtain ⟨db, opens⟩ := t
  cases opens with
  | nil => rcases hc with rfl | ⟨ok, rfl⟩ <;> simp [Thread.step] at hstep
  | cons last opens =>
    obtain ⟨e, l, hs⟩ : ∃ e l, db.txs = e :: l := by
      cases htxs : db.txs with
      | nil => simpa using h.mirrors.eq_nil_iff.mpr htxs
      | cons e l => exact ⟨e, l, rfl⟩
    have hstay : Mirrors ({ e with count := e.count - 1 } :: l) opens →
        Inv ⟨{ db with txs := { e with count := e.count - 1 } :: l }, opens⟩ := fun hm =>
      ⟨h.penv, hm, fun id => by simpa [hs] using h.ended id⟩
    rcases hc with rfl | ⟨ok, rfl⟩
    · obtain rfl := Option.some.inj hstep
      rcases end_eq hs h.mirrors with ⟨rfl, -, hm, habort, -⟩ | ⟨-, hm, habort, -⟩
      · rw [habort]
        refine ⟨hstay hm, ?_⟩
        simp [lockGap, Thread.writes, Slip]
      · rw [habort]
        refine ⟨h.ended_one hs hm, ?_⟩
        cases last with
        | true => simp [lockGap, Thread.writes, Slip]
        | false =>
          simp [lockGap, Thread.writes, Slip]
          omega
    · obtain rfl := Option.some.inj hstep
      rcases end_eq hs h.mirrors with ⟨rfl, -, hm, -, hcommit⟩ | ⟨-, hm, -, hcommit⟩
      · rw [hcommit ok]
        refine ⟨hstay hm, ?_⟩
        simp [lockGap, Thread.writes, Slip]
      · rw [hcommit ok]
        refine ⟨h.ended_one hs hm, ?_⟩
        cases last with
        | true => simp [lockGap, Thread.writes, Slip]
        | false =>
          cases ok <;> simp [lockGap, Thread.writes, Slip]
          omega

theorem step_inv {t t' : Thread} {c : Call} (h : Inv t) (hstep : t.step c = some t') :
    Inv t' ∧ (lockGap t' = lockGap t ↔ ¬Slip t c) := by
  cases c with
  | begin readOnly ok => exact begin_inv h hstep
  | commit ok => exact end_inv h (Or.inr ⟨ok, rfl⟩) hstep
  | abort => exact end_inv h (Or.inl rfl) hstep

theorem run_append (t : Thread) (l l' : List Call) :
    t.run (l ++ l') = (t.run l).bind fun t' => t'.run l' := by
  induction l generalizing t with
  | nil => rfl
  | cons c l ih =>
    simp only [List.cons_append, Thread.run]
    cases t.step c with
    | none => rfl
    | some t' => exact ih t'

theorem run_take_succ {t t' : Thread} {calls : List Call} {k : ℕ} {c : Call}
    (ht : t.run (calls.take k) = some t') (hc : calls[k]? = some c) :
    t.run (calls.take (k + 1)) = t'.step c := by
  rw [List.take_add_one, hc, Option.toList_some, run_append, ht, Option.bind_some]
  simp only [Thread.run]
  cases t'.step c <;> rfl

theorem run_take {t t' : Thread} {calls : List Call} (h : t.run calls = some t') (k : ℕ) :
    ∃ t'', t.run (calls.take k) = some t'' := by
  rw [← List.take_append_drop k calls, run_append] at h
  obtain ⟨t'', ht'', -⟩ := Option.bind_eq_some_iff.mp h
  exact ⟨t'', ht''⟩

theorem run_inv {t t' : Thread} {calls : List Call} (h : Inv t) (hr : t.run calls = some t') :
    Inv t' := by
  induction calls generalizing t with
  | nil =>
    obtain rfl := Option.some.inj hr
    exact h
  | cons c l ih =>
    unfold Thread.run at hr
    cases hstep : t.step c with
    | none => simp [hstep] at hr
    | some t₁ =>
      rw [hstep] at hr
      exact ih (step_inv h hstep).1 hr

theorem Inv.endedOnce {t : Thread} (h : Inv t) : EndedOnce t :=
  ⟨h.ended, h.mirrors.eq_nil_iff.mp⟩

theorem Inv.readersNested {t : Thread} (h : Inv t) : ReadersNested t := by
  obtain ⟨db, opens⟩ := t
  rintro outer rest rfl c t' hc hstep
  obtain ⟨e, l, hs⟩ : ∃ e l, db.txs = e :: l := by
    cases htxs : db.txs with
    | nil => simpa using h.mirrors.eq_nil_iff.mpr htxs
    | cons e l => exact ⟨e, l, rfl⟩
  rcases end_eq hs h.mirrors with ⟨-, -, -, habort, hcommit⟩ | ⟨hnil, -⟩
  swap
  · simpa using hnil rfl
  rcases hc with rfl | ⟨ok, rfl⟩
  · obtain rfl := Option.some.inj hstep
    rw [habort]
    exact ⟨rfl, rfl, by simp [hs]⟩
  · obtain rfl := Option.some.inj hstep
    rw [hcommit ok]
    exact ⟨rfl, rfl, by simp [hs]⟩

/-- In every properly nested run each transaction of LMDB ends once and nested readers end none; the
lock is held once for each open write transaction in every state if and only if no call of the run is
a slip. -/
theorem lock_iff_no_slip (calls : List Call) (t : Thread) (h : Thread.opened.run calls = some t) :
    (∀ k t', Thread.opened.run (calls.take k) = some t' → EndedOnce t' ∧ ReadersNested t') ∧
    ((∀ k t', Thread.opened.run (calls.take k) = some t' → t'.db.lockDepth = t'.writes) ↔
      ∀ k t' c, Thread.opened.run (calls.take k) = some t' → calls[k]? = some c → ¬Slip t' c) := by
  refine ⟨fun k t' ht' => ?_, ?_, ?_⟩
  · have hi := run_inv inv_opened ht'
    exact ⟨hi.endedOnce, hi.readersNested⟩
  · intro hlock k t' c ht' hc
    obtain ⟨t'', ht''⟩ := run_take h (k + 1)
    have hstep := ht''
    rw [run_take_succ ht' hc] at hstep
    refine (step_inv (run_inv inv_opened ht') hstep).2.mp ?_
    rw [lockGap, lockGap, hlock _ _ ht', hlock _ _ ht'', sub_self, sub_self]
  · intro hslip k
    -- the gap stays what it was in the beginning
    suffices hgap : ∀ t', Thread.opened.run (calls.take k) = some t' → lockGap t' = 0 from
      fun t' ht' => sub_eq_zero.mp (hgap t' ht')
    induction k with
    | zero =>
      intro t' ht'
      obtain rfl := Option.some.inj ht'
      exact lockGap_opened
    | succ k ih =>
      intro t'' ht''
      obtain ⟨t', ht'⟩ := run_take h k
      cases hc : calls[k]? with
      | none =>
        rw [List.take_add_one, hc, Option.toList_none, List.append_nil, ht'] at ht''
        obtain rfl := Option.some.inj ht''
        exact ih t' ht'
      | some c =>
        rw [run_take_succ ht' hc] at ht''
        rw [(step_inv (run_inv inv_opened ht') ht'').2.mpr (hslip k t' c ht' hc), ih t' ht']

theorem lock_iff_no_slip_nested : ∃ t,
    Thread.opened.run [.begin false true, .begin true true, .commit true, .commit true] = some t ∧
    EndedOnce t ∧ ReadersNested t ∧ t.db.ended = [0] := by
  refine ⟨_, rfl, ?_⟩
  have h := (lock_iff_no_slip
    [.begin false true, .begin true true, .commit true, .commit true] _ rfl).1 4 _ rfl
  exact ⟨h.1, h.2, rfl⟩

/-- A write transaction whose commit fails leaves the lock behind. -/
theorem lock_left_by_commit : ¬∀ (calls : List Call) (t : Thread),
    Thread.opened.run calls = some t → t.db.lockDepth = t.writes := fun h =>
  absurd (h [.begin false true, .commit false] _ rfl) (by decide)

end Boolberry.Lmdb
