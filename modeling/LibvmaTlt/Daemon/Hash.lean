import Mathlib.Data.List.FinRange
import Mathlib.Data.Nat.Prime.Basic
import LibvmaTlt.Lib.Assoc
import LibvmaTlt.Lib.CInt
import LibvmaTlt.Lib.Probe
import LibvmaTlt.Lib.Reach

/-!
# The hash table of the daemon (`hash.c`)

Keys are kept in an array of slots and found by a cyclic search from the slot of their remainder. A
search for a key that is not there looks at every slot, so deleted slots need no mark. The slot that was
found last is tried first. `hash_put` first asks whether the table is full, also for a key that is in
it.
-/

namespace LibvmaTlt.Daemon

/-! ## The table -/

abbrev HashKey := BitVec 32

def hashKeyInvalid : HashKey := BitVec.allOnes 32

/-- `struct hash_element`; no value is `NULL`. -/
structure HashElement (V : Type) where
  key : HashKey
  value : Option V
  deriving DecidableEq

/-- `struct hash_object` with `n` slots. -/
structure HashTable (V : Type) (n : Nat) where
  table : Fin n → HashElement V
  last : Option (Fin n)
  count : Int
  free : Bool
  pos : 0 < n

variable {V : Type} {n : Nat}

def checkPrime (value : Int) : Bool :=
  (List.range (value.toNat / 2 + 1)).all fun i => i < 2 || value.toNat % i ≠ 0

def HashTable.empty (V : Type) (free : Bool) (pos : 0 < n) : HashTable V n where
  table := fun _ => ⟨hashKeyInvalid, none⟩
  last := none
  count := 0
  free := free
  pos := pos

/-- `hash_create`. The size is an `int`; no memory is there for a negative number of slots, and a table
without slots is left out. -/
def hashCreate (V : Type) (free : Bool) (size : Nat) : Option ((n : Nat) × HashTable V n) :=
  if !checkPrime (cInt size) then none
  else if h : 0 < (cInt size).toNat then some ⟨_, .empty V free h⟩
  else none

theorem hashCreate_some {free : Bool} {size : Nat} {ht : HashTable V n}
    (h : hashCreate V free size = some ⟨n, ht⟩) : ∃ pos, ht = .empty V free pos := by
  unfold hashCreate at h
  generalize (cInt size).toNat = k at h
  split at h
  · cases h
  · split at h
    · cases h
      exact ⟨_, rfl⟩
    · cases h

/-- `hash_find`; `flag` asks for a slot for a new key. -/
def HashTable.find (ht : HashTable V n) (key : HashKey) (flag : Bool) :
    HashTable V n × Option (Fin n) :=
  match ht.last.filter fun i => (ht.table i).key = key with
  | some i => (ht, some i)
  | none =>
    let expectKey := if flag then hashKeyInvalid else key
    let entry := probe (fun i => (ht.table i).key = expectKey) (n - 1)
      ⟨key.toNat % n, Nat.mod_lt _ ht.pos⟩
    ({ ht with last := entry.or ht.last }, entry)

def HashTable.get (ht : HashTable V n) (key : HashKey) : HashTable V n × Option V :=
  let (ht, entry) := ht.find key false
  (ht, entry.bind fun i => (ht.table i).value)

/-- The values that go to the free function when a slot is given up. -/
def HashTable.freed (ht : HashTable V n) (i : Fin n) : List V :=
  if ht.free then (ht.table i).value.toList else []

/-- `hash_put`, with the values passed to the free function. -/
def HashTable.put (ht : HashTable V n) (key : HashKey) (value : V) :
    HashTable V n × Option V × List V :=
  if ht.count < n then
    let (ht, entry) := ht.find key false
    let (ht, entry) := if entry.isNone then ht.find key true else (ht, entry)
    match entry with
    | none => (ht, none, [])
    | some i =>
      ({ ht with
          table := Function.update ht.table i ⟨key, some value⟩
          count := if (ht.table i).key = hashKeyInvalid then ht.count + 1 else ht.count },
        some value, ht.freed i)
  else (ht, none, [])

def HashTable.del (ht : HashTable V n) (key : HashKey) : HashTable V n × List V :=
  let (ht, entry) := ht.find key false
  match entry with
  | none => (ht, [])
  | some i =>
    ({ ht with
        table := Function.update ht.table i ⟨hashKeyInvalid, none⟩
        count := if (ht.table i).key ≠ hashKeyInvalid then ht.count - 1 else ht.count },
      ht.freed i)

/-! ## Finding -/

section Find

variable {ht : HashTable V n} {key : HashKey}

theorem HashTable.find_same (ht : HashTable V n) (key : HashKey) (flag : Bool) :
    ∃ last, (ht.find key flag).1 = { ht with last := last } := by
  unfold HashTable.find
  split
  · exact ⟨ht.last, rfl⟩
  · exact ⟨_, rfl⟩

theorem HashTable.find_key (ht : HashTable V n) (key : HashKey) :
    (∃ i, (ht.find key false).2 = some i ∧ (ht.table i).key = key) ∨
      ((ht.find key false).2 = none ∧ ∀ i, (ht.table i).key ≠ key) := by
  unfold HashTable.find
  cases hl : ht.last.filter fun i => (ht.table i).key = key with
  | some i => exact .inl ⟨i, rfl, by simpa using (Option.filter_eq_some_iff.mp hl).2⟩
  | none =>
    simp only [Bool.false_eq_true, ↓reduceIte]
    cases hp : probe (fun i => decide ((ht.table i).key = key)) (n - 1)
      ⟨key.toNat % n, Nat.mod_lt _ ht.pos⟩ with
    | some i => exact .inl ⟨i, rfl, by simpa using probe_some hp⟩
    | none => exact .inr ⟨rfl, fun i => by simpa using probe_none hp i⟩

theorem HashTable.find_free (hno : ∀ i, (ht.table i).key ≠ key) :
    (∃ i, (ht.find key true).2 = some i ∧ (ht.table i).key = hashKeyInvalid) ∨
      ((ht.find key true).2 = none ∧ ∀ i, (ht.table i).key ≠ hashKeyInvalid) := by
  unfold HashTable.find
  have hl : (ht.last.filter fun i => (ht.table i).key = key) = none := by
    rw [Option.filter_eq_none_iff]
    intro i _
    simpa using hno i
  simp only [hl, ↓reduceIte]
  cases hp : probe (fun i => decide ((ht.table i).key = hashKeyInvalid)) (n - 1)
    ⟨key.toNat % n, Nat.mod_lt _ ht.pos⟩ with
  | some i => exact .inl ⟨i, rfl, by simpa using probe_some hp⟩
  | none => exact .inr ⟨rfl, fun i => by simpa using probe_none hp i⟩

end Find

/-! ## The finite map -/

/-- Slots hold a map: a slot in use has a key of the map with its value, and each key has one slot. -/
structure Slots (table : Fin n → HashElement V) (m : AList fun _ : HashKey => V) : Prop where
  unused : ∀ i, (table i).key = hashKeyInvalid → (table i).value = none
  used : ∀ i k, (table i).key = k → k ≠ hashKeyInvalid →
    ∃ v, (table i).value = some v ∧ m.lookup k = some v
  slot : ∀ k ∈ m, ∃ i, (table i).key = k
  one : ∀ i j, (table i).key = (table j).key → (table i).key ≠ hashKeyInvalid → i = j
  valid : hashKeyInvalid ∉ m

section Slots

variable {table : Fin n → HashElement V} {m : AList fun _ : HashKey => V} {key : HashKey} {v : V}
  {i : Fin n}

theorem Slots.empty :
    Slots (fun _ : Fin n => ⟨hashKeyInvalid, none⟩) (∅ : AList fun _ : HashKey => V) where
  unused := fun _ _ => rfl
  used := fun _ _ h hk => absurd h.symm hk
  slot := fun _ h => absurd h (AList.notMem_empty _)
  one := fun _ _ _ h => absurd rfl h
  valid := AList.notMem_empty _

theorem Slots.lookup_none (h : Slots table m) (hno : ∀ i, (table i).key ≠ key) :
    m.lookup key = none := by
  rw [AList.lookup_eq_none]
  intro hmem
  obtain ⟨i, hi⟩ := h.slot key hmem
  exact hno i hi

theorem Slots.exists_unused (h : Slots table m) (hlt : m.keys.length < n) :
    ∃ i, (table i).key = hashKeyInvalid := by
  by_contra hall
  rw [not_exists] at hall
  have hnodup : (List.ofFn fun i => (table i).key).Nodup :=
    List.nodup_ofFn.mpr fun i j heq => h.one i j heq (hall i)
  have hsub : (List.ofFn fun i => (table i).key) ⊆ m.keys := by
    intro k hk
    obtain ⟨i, rfl⟩ := List.mem_ofFn.mp hk
    obtain ⟨v, -, hv⟩ := h.used i _ rfl (hall i)
    exact AList.mem_keys.mp (mem_of_lookup hv)
  have hlen := (List.subperm_of_subset hnodup hsub).length_le
  rw [List.length_ofFn] at hlen
  omega

theorem Slots.write (h : Slots table m) (hkey : key ≠ hashKeyInvalid)
    (hi : (table i).key = key ∨ (table i).key = hashKeyInvalid ∧ ∀ j, (table j).key ≠ key) :
    Slots (Function.update table i ⟨key, some v⟩) (m.insert key v) := by
  have hother : ∀ j, j ≠ i → (table j).key ≠ key := by
    intro j hj heq
    rcases hi with hi | ⟨-, hno⟩
    · exact hj (h.one j i (heq.trans hi.symm) (heq ▸ hkey))
    · exact hno j heq
  have hself : Function.update table i ⟨key, some v⟩ i = ⟨key, some v⟩ := Function.update_self ..
  have hrest : ∀ j, j ≠ i → Function.update table i ⟨key, some v⟩ j = table j :=
    fun j hj => Function.update_of_ne hj ..
  refine ⟨?_, ?_, ?_, ?_, ?_⟩
  · intro j hj
    by_cases hji : j = i
    · rw [hji, hself] at hj
      exact absurd hj hkey
    · rw [hrest j hji] at hj ⊢
      exact h.unused j hj
  · intro j k hj hk
    by_cases hji : j = i
    · rw [hji, hself] at hj ⊢
      cases hj
      exact ⟨v, rfl, AList.lookup_insert _⟩
    · rw [hrest j hji] at hj ⊢
      rw [AList.lookup_insert_ne (hj ▸ hother j hji)]
      exact h.used j k hj hk
  · intro k hk
    by_cases hkk : k = key
    · exact ⟨i, (congrArg HashElement.key hself).trans hkk.symm⟩
    have hmem := (AList.mem_insert _).mp hk |>.resolve_left hkk
    obtain ⟨j, hj⟩ := h.slot k hmem
    -- a slot of another key is not the one that is written
    have hji : j ≠ i := by
      rintro rfl
      rcases hi with hi | ⟨hi, -⟩
      · exact hkk (hj.symm.trans hi)
      · exact h.valid (hi ▸ hj ▸ hmem)
    exact ⟨j, (congrArg HashElement.key (hrest j hji)).trans hj⟩
  · intro j j' heq hne
    by_cases hji : j = i <;> by_cases hji' : j' = i
    · exact hji.trans hji'.symm
    · rw [hji, hself, hrest j' hji'] at heq
      exact absurd heq.symm (hother j' hji')
    · rw [hji', hself, hrest j hji] at heq
      exact absurd heq (hother j hji)
    · rw [hrest j hji] at heq hne
      rw [hrest j' hji'] at heq
      exact h.one j j' heq hne
  · rw [AList.mem_insert, not_or]
    exact ⟨hkey.symm, h.valid⟩

theorem Slots.clear (h : Slots table m) (hi : (table i).key = key) :
    Slots (Function.update table i ⟨hashKeyInvalid, none⟩) (m.erase key) := by
  have hself : Function.update table i ⟨hashKeyInvalid, none⟩ i = ⟨hashKeyInvalid, none⟩ :=
    Function.update_self ..
  have hrest : ∀ j, j ≠ i → Function.update table i ⟨hashKeyInvalid, none⟩ j = table j :=
    fun j hj => Function.update_of_ne hj ..
  refine ⟨?_, ?_, ?_, ?_, ?_⟩
  · intro j hj
    by_cases hji : j = i
    · rw [hji, hself]
    · rw [hrest j hji] at hj ⊢
      exact h.unused j hj
  · intro j k hj hk
    by_cases hji : j = i
    · rw [hji, hself] at hj
      exact absurd hj.symm hk
    · rw [hrest j hji] at hj ⊢
      have hkk : k ≠ key := fun heq => hji (h.one j i (by rw [hj, hi, heq]) (hj ▸ hk))
      rw [AList.lookup_erase_ne hkk]
      exact h.used j k hj hk
  · intro k hk
    obtain ⟨hkk, hmem⟩ := AList.mem_erase.mp hk
    obtain ⟨j, hj⟩ := h.slot k hmem
    have hji : j ≠ i := by
      rintro rfl
      exact hkk (hj.symm.trans hi)
    exact ⟨j, (congrArg HashElement.key (hrest j hji)).trans hj⟩
  · intro j j' heq hne
    have hji : j ≠ i := by
      rintro rfl
      exact hne (congrArg HashElement.key hself)
    have hji' : j' ≠ i := by
      rintro rfl
      exact hne (heq.trans (congrArg HashElement.key hself))
    rw [hrest j hji] at heq hne
    rw [hrest j' hji'] at heq
    exact h.one j j' heq hne
  · exact fun hmem => h.valid (AList.mem_erase.mp hmem).2

end Slots

/-- A table holds a map: its slots do, and the count is the number of keys. -/
structure Holds (ht : HashTable V n) (m : AList fun _ : HashKey => V) : Prop where
  slots : Slots ht.table m
  count : ht.count = m.keys.length

section Operations

variable {ht : HashTable V n} {m : AList fun _ : HashKey => V} {key : HashKey} {v : V}

theorem Holds.find (h : Holds ht m) (flag : Bool) : Holds (ht.find key flag).1 m := by
  obtain ⟨last, heq⟩ := ht.find_same key flag
  rw [heq]
  exact ⟨h.slots, h.count⟩

theorem Holds.get (h : Holds ht m) (hkey : key ≠ hashKeyInvalid) :
    (ht.get key).2 = m.lookup key ∧ Holds (ht.get key).1 m := by
  refine ⟨?_, h.find false⟩
  obtain ⟨last, heq⟩ := ht.find_same key false
  show ((ht.find key false).2.bind fun i => ((ht.find key false).1.table i).value) = m.lookup key
  rw [heq]
  rcases ht.find_key key with ⟨i, hi, hik⟩ | ⟨hnone, hno⟩
  · obtain ⟨v, hv, hm⟩ := h.slots.used i key hik hkey
    rw [hi, Option.bind_some, hm, hv]
  · rw [hnone, Option.bind_none, h.slots.lookup_none hno]

theorem Holds.freed (h : Holds ht m) (hkey : key ≠ hashKeyInvalid) {i : Fin n}
    (hi : (ht.table i).key = key ∨ (ht.table i).key = hashKeyInvalid ∧ ∀ j, (ht.table j).key ≠ key) :
    ht.freed i = if ht.free then (m.lookup key).toList else [] := by
  unfold HashTable.freed
  rcases hi with hi | ⟨hi, hno⟩
  · obtain ⟨v, hv, hm⟩ := h.slots.used i key hi hkey
    rw [hv, hm]
  · rw [h.slots.unused i hi, h.slots.lookup_none hno]

theorem Holds.put_eq (h : Holds ht m) (key : HashKey) (v : V) (hcount : ht.count < n) :
    ∃ last i, ((ht.table i).key = key ∨
        (ht.table i).key = hashKeyInvalid ∧ ∀ j, (ht.table j).key ≠ key) ∧
      ht.put key v =
        ({ ht with
            table := Function.update ht.table i ⟨key, some v⟩
            last := last
            count := if (ht.table i).key = hashKeyInvalid then ht.count + 1 else ht.count },
          some v, ht.freed i) := by
  obtain ⟨last, hlast⟩ := ht.find_same key false
  unfold HashTable.put
  simp only [if_pos hcount]
  rcases ht.find_key key with ⟨i, hi, hik⟩ | ⟨hnone, hno⟩
  · simp only [hi, hlast, Option.isNone_some, Bool.false_eq_true, ↓reduceIte]
    exact ⟨last, i, .inl hik, rfl⟩
  simp only [hnone, hlast, Option.isNone_none, ↓reduceIte]
  obtain ⟨last', hlast'⟩ := HashTable.find_same { ht with last := last } key true
  have hfree : ∃ i, (ht.table i).key = hashKeyInvalid := by
    apply h.slots.exists_unused
    have := h.count
    omega
  rcases @HashTable.find_free _ _ { ht with last := last } key hno with ⟨i, hi, hik⟩ | ⟨-, hfull⟩
  · simp only [hi, hlast']
    exact ⟨last', i, .inr ⟨hik, hno⟩, rfl⟩
  · obtain ⟨i, hi⟩ := hfree
    exact absurd hi (hfull i)

theorem Holds.put (h : Holds ht m) (hkey : key ≠ hashKeyInvalid) (hcount : ht.count < n) :
    (ht.put key v).2 = (some v, if ht.free then (m.lookup key).toList else []) ∧
      Holds (ht.put key v).1 (m.insert key v) ∧ (ht.put key v).1.free = ht.free := by
  obtain ⟨last, i, hi, heq⟩ := h.put_eq key v hcount
  rw [heq]
  refine ⟨by rw [h.freed hkey hi], ⟨h.slots.write hkey hi, ?_⟩, rfl⟩
  show (if (ht.table i).key = hashKeyInvalid then ht.count + 1 else ht.count) = _
  rcases hi with hi | ⟨hi, hno⟩
  · obtain ⟨w, -, hw⟩ := h.slots.used i key hi hkey
    rw [if_neg (hi ▸ hkey), length_keys_insert_of_mem (mem_of_lookup hw), h.count]
  · have hnot : key ∉ m := AList.lookup_eq_none.mp (h.slots.lookup_none hno)
    rw [if_pos hi, length_keys_insert_of_notMem hnot, h.count]
    rfl

theorem HashTable.put_full (hcount : ¬ht.count < n) : ht.put key v = (ht, none, []) := by
  unfold HashTable.put
  rw [if_neg hcount]

theorem Holds.del (h : Holds ht m) (hkey : key ≠ hashKeyInvalid) :
    (ht.del key).2 = (if ht.free then (m.lookup key).toList else []) ∧
      Holds (ht.del key).1 (m.erase key) ∧ (ht.del key).1.free = ht.free := by
  obtain ⟨last, hlast⟩ := ht.find_same key false
  unfold HashTable.del
  rcases ht.find_key key with ⟨i, hi, hik⟩ | ⟨hnone, hno⟩
  · simp only [hi, hlast]
    refine ⟨h.freed hkey (.inl hik), ⟨h.slots.clear hik, ?_⟩, trivial⟩
    show (if (ht.table i).key ≠ hashKeyInvalid then ht.count - 1 else ht.count) = _
    obtain ⟨w, -, hw⟩ := h.slots.used i key hik hkey
    have hlen := length_keys_erase_of_mem (mem_of_lookup hw)
    have hcount := h.count
    rw [if_pos (hik ▸ hkey)]
    omega
  · have hnot : key ∉ m := AList.lookup_eq_none.mp (h.slots.lookup_none hno)
    simp only [hnone, hlast, h.slots.lookup_none hno, erase_of_notMem hnot]
    exact ⟨(ite_self _).symm, ⟨h.slots, h.count⟩, trivial⟩

end Operations

/-! ## Runs -/

/-- The keys that are not the mark of a free slot. -/
abbrev ValidKey := { key : HashKey // key ≠ hashKeyInvalid }

inductive HashOp (V : Type) where
  | put (key : ValidKey) (value : V)
  | get (key : ValidKey)
  | del (key : ValidKey)

/-- A table with what the calls on it amount to: the map, the values passed to the free function, and
those that were overwritten or deleted. -/
structure HashRun (V : Type) (n : Nat) where
  ht : HashTable V n
  map : AList fun _ : HashKey => V := ∅
  freed : List V := []
  dropped : List V := []

def HashRun.step (s : HashRun V n) : HashOp V → HashRun V n
  | .put key value =>
    let (ht, result, freed) := s.ht.put key value
    if result.isSome then
      { ht := ht, map := s.map.insert key value, freed := s.freed ++ freed,
        dropped := s.dropped ++ (s.map.lookup key.1).toList }
    else { s with ht := ht, freed := s.freed ++ freed }
  | .get key => { s with ht := (s.ht.get key).1 }
  | .del key =>
    let (ht, freed) := s.ht.del key
    { ht := ht, map := s.map.erase key, freed := s.freed ++ freed,
      dropped := s.dropped ++ (s.map.lookup key.1).toList }

/-- `hash_put` is not called on a full table with a key that is in it, nor with fewer keys than the size
that was asked for. -/
def HashRun.orderly (s : HashRun V n) (size : Nat) : HashOp V → Bool
  | .put key _ => s.ht.count < n || (size ≤ s.ht.count && decide (∀ i, (s.ht.table i).key ≠ key.1))
  | .get _ | .del _ => true

/-- A call does what it should: `hash_put` succeeds for a key that is present, and while fewer keys are
present than the size that was asked for; `hash_get` answers as the map does. -/
def HashRun.StepRight (s : HashRun V n) (size : Nat) : HashOp V → Prop
  | .put key value =>
    key.1 ∈ s.map ∨ s.map.keys.length < size → (s.ht.put key value).2.1 = some value
  | .get key => (s.ht.get key).2 = s.map.lookup key.1
  | .del _ => True

/-- The table holds the map, and the free function got what was overwritten or deleted. -/
structure HashRun.Inv (s : HashRun V n) (free : Bool) : Prop where
  holds : Holds s.ht s.map
  freed : s.freed = if free then s.dropped else []
  free : s.ht.free = free

section Runs

variable {s : HashRun V n} {free : Bool} {size : Nat}

theorem HashRun.Inv.start (pos : 0 < n) :
    HashRun.Inv (V := V) { ht := .empty V free pos } free where
  holds := ⟨.empty, rfl⟩
  freed := (ite_self _).symm
  free := rfl

theorem HashRun.Inv.step (h : s.Inv free) (a : HashOp V) : (s.step a).Inv free := by
  have hfree := h.free
  have happ : ∀ l : List V,
      (s.freed ++ if s.ht.free then l else []) = if free then s.dropped ++ l else [] := by
    intro l
    rw [h.freed, hfree]
    cases free <;> simp
  cases a with
  | put key value =>
    by_cases hcount : s.ht.count < n
    · obtain ⟨hres, hh, hf⟩ := h.holds.put (v := value) key.2 hcount
      simp only [HashRun.step, hres, Option.isSome_some, ↓reduceIte]
      exact ⟨hh, happ _, hf.trans hfree⟩
    · simp only [HashRun.step, HashTable.put_full hcount, Option.isSome_none, Bool.false_eq_true,
        ↓reduceIte, List.append_nil]
      exact ⟨h.holds, h.freed, hfree⟩
  | get key =>
    obtain ⟨last, hlast⟩ := s.ht.find_same key.1 false
    refine ⟨(h.holds.get key.2).2, h.freed, ?_⟩
    show (s.ht.find key.1 false).1.free = free
    rw [hlast]
    exact hfree
  | del key =>
    obtain ⟨hres, hh, hf⟩ := h.holds.del key.2
    simp only [HashRun.step, hres]
    exact ⟨hh, happ _, hf.trans hfree⟩

theorem HashRun.Inv.stepRight_iff (h : s.Inv free) (a : HashOp V) :
    s.StepRight size a ↔ s.orderly size a = true := by
  cases a with
  | get key => exact iff_of_true (h.holds.get key.2).1 rfl
  | del key => exact iff_of_true trivial rfl
  | put key value =>
    have hlen := h.holds.count
    simp only [HashRun.orderly, Bool.or_eq_true, Bool.and_eq_true, decide_eq_true_eq]
    by_cases hcount : s.ht.count < n
    · exact iff_of_true (fun _ => congrArg Prod.fst (h.holds.put key.2 hcount).1) (.inl hcount)
    rw [or_iff_right hcount]
    constructor
    · intro hright
      have hno : ¬(key.1 ∈ s.map ∨ s.map.keys.length < size) := by
        intro hroom
        have := hright hroom
        rw [HashTable.put_full hcount] at this
        cases this
      rw [not_or] at hno
      refine ⟨by omega, fun i hi => ?_⟩
      obtain ⟨w, -, hw⟩ := h.holds.slots.used i _ hi key.2
      exact hno.1 (mem_of_lookup hw)
    · rintro ⟨hsize, hno⟩ (hmem | hlt)
      · exact absurd hmem (AList.lookup_eq_none.mp (h.holds.slots.lookup_none hno))
      · omega

/-- In every run of calls on a table from `hash_create`, the count is the number of keys, `hash_get`
answers as the finite map does, the free function got exactly the values that were overwritten or
deleted, and a call does what it should exactly if it is orderly. -/
theorem hash_finite_map {ht : HashTable V n} (hc : hashCreate V free size = some ⟨n, ht⟩)
    (hr : Reach HashRun.step (fun _ _ => True) { ht := ht } s) :
    s.ht.count = s.map.keys.length ∧ (∀ key : ValidKey, (s.ht.get key.1).2 = s.map.lookup key.1) ∧
      s.freed = (if free then s.dropped else []) ∧
      ∀ a, s.StepRight size a ↔ s.orderly size a = true := by
  obtain ⟨pos, rfl⟩ := hashCreate_some hc
  have h : s.Inv free := hr.inv (I := fun s => HashRun.Inv s free) (.start pos) fun _ a h _ => h.step a
  exact ⟨h.holds.count, fun key => (h.holds.get key.2).1, h.freed, h.stepRight_iff⟩

end Runs

def bothTaken : HashRun Nat 2 :=
  (HashRun.step { ht := .empty Nat true (by decide) } (.put ⟨1, by decide⟩ 10)).step
    (.put ⟨2, by decide⟩ 20)

theorem hash_finite_map_bothTaken :
    (bothTaken.ht.get 1).2 = some 10 ∧ bothTaken.ht.count = bothTaken.map.keys.length := by
  have hr : Reach HashRun.step (fun _ _ => True) { ht := HashTable.empty Nat true (by decide) }
      bothTaken := .next (.next .start (HashOp.put ⟨1, by decide⟩ 10) trivial) _ trivial
  have h := @hash_finite_map _ _ _ true 2 _ rfl hr
  exact ⟨(h.2.1 ⟨1, by decide⟩).trans (by decide +kernel), h.1⟩

/-- A key that is present cannot be given a new value. -/
theorem hash_put_present_fails :
    hashCreate Nat true 2 = some ⟨2, .empty Nat true (by decide)⟩ ∧
      Reach HashRun.step (fun _ _ => True) { ht := HashTable.empty Nat true (by decide) } bothTaken ∧
      (bothTaken.ht.get 1).2 = some 10 ∧ (bothTaken.ht.put 1 30).2 = (none, []) ∧
      ¬bothTaken.StepRight 2 (.put ⟨1, by decide⟩ 30) := by
  have hput : (bothTaken.ht.put 1 30).2 = (none, []) := by decide +kernel
  refine ⟨rfl, .next (.next .start (HashOp.put ⟨1, by decide⟩ 10) trivial) _ trivial,
    by decide +kernel, hput, ?_⟩
  intro hright
  have := hright (.inl (by decide +kernel))
  rw [show (bothTaken.ht.put 1 30).2.1 = none from congrArg Prod.fst hput] at this
  cases this

end LibvmaTlt.Daemon
