import Boolberry.Lib.FiniteMap
import Boolberry.FormatUtils

/-!
# Alias histories

`put_alias_info` and `pop_alias_info` on the two alias containers: the history of
registrations of each name, and the set of names that currently point to an
address.
-/

namespace Boolberry
open KeyValue

structure AliasDb where
  aliases : Map Blob (List AliasInfoBase)
  addrToAlias : Map AccountPublicAddress (Finset Blob)

namespace AliasDb

/-- The history of a name; an absent one and an empty one read alike. -/
def history (d : AliasDb) (name : Blob) : List AliasInfoBase := (d.aliases.get name).getD []

/-- The names that `addrToAlias` lists for an address. -/
def names (d : AliasDb) (a : AccountPublicAddress) : Finset Blob := (d.addrToAlias.get a).getD ∅

/-- Take `name` out of the set of an address, dropping the record when it becomes empty. -/
def eraseName (m : Map AccountPublicAddress (Finset Blob)) (a : AccountPublicAddress)
    (name : Blob) : Map AccountPublicAddress (Finset Blob) :=
  match m.get a with
  | none => m
  | some s => if s.erase name = ∅ then m.erase a else m.set a (s.erase name)

def insertName (m : Map AccountPublicAddress (Finset Blob)) (a : AccountPublicAddress)
    (name : Blob) : Map AccountPublicAddress (Finset Blob) :=
  m.set a (insert name ((m.get a).getD ∅))

/-- `put_alias_info`; `none` is a return of `false`, before anything is written. -/
def putAliasInfo (E : Env) (d : AliasDb) (ai : AliasInfo) : Option AliasDb :=
  if ai.aliasName = [] then none
  else if ai.sign = nullSig then
    -- adding a new alias: the name has to be free
    if d.history ai.aliasName ≠ [] then none
    else some
      { aliases := d.aliases.set ai.aliasName [ai.toAliasInfoBase]
        addrToAlias := insertName d.addrToAlias ai.address ai.aliasName }
  else
    match (d.history ai.aliasName).getLast? with
    | none => none
    | some last =>
        if E.checkSignature (E.cnFastHash (aliasBuffToSign ai)) last.address.spendPublicKey ai.sign
        then some
          { aliases := d.aliases.set ai.aliasName (d.history ai.aliasName ++ [ai.toAliasInfoBase])
            addrToAlias := insertName (eraseName d.addrToAlias last.address ai.aliasName)
              ai.address ai.aliasName }
        else none

/-- `pop_alias_info`; `none` is a return of `false`, before anything is written. -/
def popAliasInfo (d : AliasDb) (ai : AliasInfo) : Option AliasDb :=
  if ai.aliasName = [] then none
  else
    match (d.history ai.aliasName).getLast? with
    | none => none
    | some last =>
        if (match d.addrToAlias.get last.address with
            | none => false
            | some s => decide (ai.aliasName ∉ s)) then none
        else
          let addr := eraseName d.addrToAlias last.address ai.aliasName
          let hist := (d.history ai.aliasName).dropLast
          some
            { aliases := d.aliases.set ai.aliasName hist
              addrToAlias := match hist.getLast? with
                | none => addr
                | some l => insertName addr l.address ai.aliasName }

/-- `addrToAlias` lists for each address the names whose history ends there, and stores no empty set. -/
structure AddrOK (d : AliasDb) : Prop where
  nonempty : ∀ a, d.addrToAlias.get a ≠ some ∅
  mem_names : ∀ a name, name ∈ d.names a ↔ ∃ l, (d.history name).getLast? = some l ∧ l.address = a

/-- Same histories and same name sets; an empty history counts as absent. -/
structure Equiv (d d' : AliasDb) : Prop where
  history : ∀ name, d.history name = d'.history name
  addrToAlias : d.addrToAlias = d'.addrToAlias

theorem addrOK_empty : AddrOK ⟨∅, ∅⟩ :=
  ⟨fun _ => by simp, fun _ _ => by simp [names, history]⟩

theorem get_addrToAlias (d : AliasDb) (h : d.AddrOK) (a : AccountPublicAddress) :
    d.addrToAlias.get a = if d.names a = ∅ then none else some (d.names a) := by
  unfold names
  cases hs : d.addrToAlias.get a with
  | none => simp
  | some s =>
    have hne : s ≠ ∅ := fun h0 => h.nonempty a (by rw [hs, h0])
    simp [hne]

theorem equiv_of_history {d d' : AliasDb} (hd : d.AddrOK) (hd' : d'.AddrOK)
    (h : ∀ name, d.history name = d'.history name) : Equiv d d' := by
  refine ⟨h, Map.ext fun a => ?_⟩
  have hnames : d.names a = d'.names a := by
    ext name
    rw [hd.mem_names, hd'.mem_names, h]
  rw [get_addrToAlias d hd, get_addrToAlias d' hd', hnames]

section Names

variable (m : Map AccountPublicAddress (Finset Blob)) (a a' : AccountPublicAddress)
  (name name' : Blob)

theorem mem_insertName :
    name' ∈ ((insertName m a name).get a').getD ∅ ↔
      name' ∈ (m.get a').getD ∅ ∨ (a' = a ∧ name' = name) := by
  unfold insertName
  rw [Map.get_set]
  split_ifs with h
  · subst h
    simp only [Option.getD_some, Finset.mem_insert, true_and]
    tauto
  · simp [h]

theorem mem_eraseName :
    name' ∈ ((eraseName m a name).get a').getD ∅ ↔
      name' ∈ (m.get a').getD ∅ ∧ ¬(a' = a ∧ name' = name) := by
  unfold eraseName
  cases hs : m.get a with
  | none =>
    by_cases h : a' = a
    · subst h
      simp [hs]
    · simp [h]
  | some s =>
    by_cases h : a' = a
    · subst h
      by_cases he : s.erase name = ∅
      · have hsub : ∀ x ∈ s, x = name := by
          intro x hx
          by_contra hne
          have : x ∈ s.erase name := Finset.mem_erase.mpr ⟨hne, hx⟩
          rw [he] at this
          simp at this
        simp only [he, if_true, Map.get_erase_self, hs, Option.getD_none, Option.getD_some,
          Finset.notMem_empty, true_and, false_iff, not_and, not_not]
        exact hsub name'
      · simp only [he, if_false, Map.get_set_self, hs, Option.getD_some, Finset.mem_erase, true_and]
        tauto
    · by_cases he : s.erase name = ∅
      · simp [he, Map.get_erase_of_ne m h, h]
      · simp [he, Map.get_set_of_ne m _ h, h]

variable {m}

theorem insertName_nonempty (hm : ∀ a, m.get a ≠ some ∅) : (insertName m a name).get a' ≠ some ∅ := by
  unfold insertName
  rw [Map.get_set]
  split_ifs
  · intro h
    have := Finset.insert_ne_empty name ((m.get a).getD ∅)
    exact this (Option.some.inj h)
  · exact hm a'

theorem eraseName_nonempty (hm : ∀ a, m.get a ≠ some ∅) : (eraseName m a name).get a' ≠ some ∅ := by
  unfold eraseName
  cases hs : m.get a with
  | none => exact hm a'
  | some s =>
    by_cases he : s.erase name = ∅
    · simp only [he, if_true, Map.get_erase]
      split_ifs
      · simp
      · exact hm a'
    · simp only [he, if_false, Map.get_set]
      split_ifs
      · simpa using he
      · exact hm a'

end Names

theorem history_set (d : AliasDb) (m : Map AccountPublicAddress (Finset Blob)) (name name' : Blob)
    (h : List AliasInfoBase) :
    history ⟨d.aliases.set name h, m⟩ name' = if name' = name then h else d.history name' := by
  unfold history
  rw [Map.get_set]
  split_ifs <;> rfl

/-- An accepted registration or update appends to one history and keeps the name sets right. -/
theorem putAliasInfo_spec {E : Env} {d d' : AliasDb} {ai : AliasInfo} (hd : d.AddrOK)
    (h : putAliasInfo E d ai = some d') :
    d'.AddrOK ∧ ∀ name, d'.history name =
      if name = ai.aliasName then d.history name ++ [ai.toAliasInfoBase] else d.history name := by
  unfold putAliasInfo at h
  split_ifs at h with hname hsign hfree
  · -- a new alias: the history was empty, so no set holds the name
    obtain rfl := Option.some.inj h
    have hemp : d.history ai.aliasName = [] := not_not.mp hfree
    have hhist : ∀ name, history ⟨d.aliases.set ai.aliasName [ai.toAliasInfoBase],
        insertName d.addrToAlias ai.address ai.aliasName⟩ name =
        if name = ai.aliasName then d.history name ++ [ai.toAliasInfoBase] else d.history name := by
      intro name
      rw [history_set]
      split_ifs with hn
      · rw [hn, hemp]
        rfl
      · rfl
    refine ⟨⟨fun a => insertName_nonempty _ _ _ hd.nonempty, fun a name => ?_⟩, hhist⟩
    rw [hhist, names, mem_insertName]
    change name ∈ d.names a ∨ _ ↔ _
    rw [hd.mem_names]
    split_ifs with hn
    · subst hn
      simp [hemp, eq_comm]
    · simp [hn]
  · cases hlast : (d.history ai.aliasName).getLast? with
    | none => simp [hlast] at h
    | some last =>
      simp only [hlast] at h
      split_ifs at h
      obtain rfl := Option.some.inj h
      have hhist : ∀ name, history ⟨d.aliases.set ai.aliasName
          (d.history ai.aliasName ++ [ai.toAliasInfoBase]),
          insertName (eraseName d.addrToAlias last.address ai.aliasName) ai.address ai.aliasName⟩
            name =
          if name = ai.aliasName then d.history name ++ [ai.toAliasInfoBase]
          else d.history name := by
        intro name
        rw [history_set]
        split_ifs with hn
        · rw [hn]
        · rfl
      refine ⟨⟨fun a => insertName_nonempty _ _ _ fun a => eraseName_nonempty _ _ _ hd.nonempty,
        fun a name => ?_⟩, hhist⟩
      rw [hhist, names, mem_insertName, mem_eraseName]
      change (name ∈ d.names a ∧ _) ∨ _ ↔ _
      rw [hd.mem_names]
      split_ifs with hn
      · subst hn
        simp only [hlast, Option.some.injEq, exists_eq_left', and_true, List.getLast?_append,
          List.getLast?_singleton, Option.some_or]
        constructor
        · rintro (⟨h1, h2⟩ | h1)
          · exact absurd h1.symm h2
          · exact h1.symm
        · intro h1
          exact Or.inr h1.symm
      · simp [hn]

/-- The last registration of a name can always be popped, and the histories lose just that entry. -/
theorem popAliasInfo_spec {d : AliasDb} {ai : AliasInfo} (hd : d.AddrOK) (hname : ai.aliasName ≠ [])
    (hne : d.history ai.aliasName ≠ []) :
    ∃ d', popAliasInfo d ai = some d' ∧ d'.AddrOK ∧ ∀ name, d'.history name =
      if name = ai.aliasName then (d.history name).dropLast else d.history name := by
  obtain ⟨last, hlast⟩ : ∃ last, (d.history ai.aliasName).getLast? = some last :=
    ⟨_, List.getLast?_eq_some_getLast hne⟩
  have hmem : ai.aliasName ∈ d.names last.address := (hd.mem_names _ _).mpr ⟨last, hlast, rfl⟩
  have hset : (match d.addrToAlias.get last.address with
      | none => false
      | some s => decide (ai.aliasName ∉ s)) = false := by
    unfold names at hmem
    cases hs : d.addrToAlias.get last.address with
    | none => rfl
    | some s => simpa [hs] using hmem
  simp only [popAliasInfo, hname, if_false, hlast, hset, Bool.false_eq_true]
  refine ⟨_, rfl, ?_, fun name => ?_⟩
  swap
  · rw [history_set]
    split_ifs with hn
    · rw [hn]
    · rfl
  have herase : ∀ a name, name ∈ ((eraseName d.addrToAlias last.address ai.aliasName).get a).getD ∅ ↔
      name ≠ ai.aliasName ∧ ∃ l, (d.history name).getLast? = some l ∧ l.address = a := by
    intro a name
    rw [mem_eraseName]
    change name ∈ d.names a ∧ _ ↔ _
    rw [hd.mem_names]
    constructor
    · rintro ⟨⟨l, hl, rfl⟩, h2⟩
      refine ⟨fun hn => h2 ⟨?_, hn⟩, l, hl, rfl⟩
      subst hn
      rw [hlast] at hl
      rw [Option.some.inj hl]
    · rintro ⟨hn, l, hl, rfl⟩
      exact ⟨⟨l, hl, rfl⟩, fun h => hn h.2⟩
  cases hl : (d.history ai.aliasName).dropLast.getLast? with
  | none =>
    refine ⟨fun a => eraseName_nonempty _ _ _ hd.nonempty, fun a name => ?_⟩
    rw [history_set, names, herase]
    split_ifs with hn
    · simp [hn, hl]
    · simp [hn]
  | some l =>
    refine ⟨fun a => insertName_nonempty _ _ _ fun a => eraseName_nonempty _ _ _ hd.nonempty,
      fun a name => ?_⟩
    rw [history_set, names, mem_insertName, herase]
    split_ifs with hn
    · simp [hn, hl, eq_comm]
    · simp [hn]

/-- The condition under which a name with history `hist` takes the registration or update `ai`. -/
def Allowed (E : Env) (hist : List AliasInfoBase) (ai : AliasInfo) : Prop :=
  if ai.sign = nullSig then hist = []
  else ∃ last, hist.getLast? = some last ∧
    E.checkSignature (E.cnFastHash (aliasBuffToSign ai)) last.address.spendPublicKey ai.sign = true

theorem putAliasInfo_isSome (E : Env) (d : AliasDb) (ai : AliasInfo) :
    (d.putAliasInfo E ai).isSome = true ↔
      ai.aliasName ≠ [] ∧ Allowed E (d.history ai.aliasName) ai := by
  unfold putAliasInfo Allowed
  by_cases hname : ai.aliasName = []
  · simp [hname]
  by_cases hsign : ai.sign = nullSig
  · by_cases hh : d.history ai.aliasName = [] <;> simp [hname, hsign, hh]
  · cases hl : (d.history ai.aliasName).getLast? with
    | none => simp [hname, hsign]
    | some last =>
      simp only [hname, hsign, if_false, ne_eq, not_false_eq_true, true_and, Option.some.injEq,
        exists_eq_left']
      split_ifs with hc <;> simp [hc]

end AliasDb
end Boolberry
