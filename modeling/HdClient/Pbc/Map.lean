-- SUMMARY: The three maps of the protobuf library: strings to pointers, field numbers to pointers, and enum names to numbers.
import Mathlib.Data.Int.Notation
import Mathlib.Data.List.Nodup
import Mathlib.Data.Nat.Log
import HdClient.Base.Duplicates
import HdClient.Base.FilledTable

/-! # Maps

`map.c` has a growing hash table keyed by strings, and two tables that are built
once: one keyed by numbers, which is an array where the numbers are small, and
one from the names of an enum to its numbers. -/

namespace Pbc

/-- The bytes of a string up to its terminating zero. -/
abbrev CStr := List UInt8

/-- The string that starts a piece of memory. -/
def cstr (mem : List UInt8) : CStr := mem.takeWhile (· ≠ 0)

/-- A string literal. -/
def lit (s : String) : CStr := s.toUTF8.data.toList

/-! ## Hashing -/

/-- A signed `char`, widened to `size_t`. -/
def charToSize (c : UInt8) : ℕ := if c.toNat < 128 then c.toNat else 2 ^ 64 - 256 + c.toNat

private def calcHashLoop (name : CStr) (step : ℕ) : ℕ → ℕ → ℕ → ℕ
  | 0, _, h => h
  | fuel + 1, i, h =>
      if step ≤ i then
        calcHashLoop name step fuel (i - step)
          (h ^^^ ((h <<< 5 + h >>> 2 + charToSize (name.getD (i - 1) 0)) % 2 ^ 64))
      else h

/-- `size_t` has 64 bits. -/
def calcHash (name : CStr) : ℕ :=
  let len := name.length
  calcHashLoop name (len >>> 5 + 1) len len len

/-! ## Strings to pointers -/

abbrev MapSp (α : Type) := ChainTable CStr α

namespace MapSp

variable {α : Type}

/-- The first power of two, from `cap` on, that is at least `max`. -/
private def growCap (max : ℕ) : ℕ → ℕ → ℕ
  | 0, cap => cap
  | fuel + 1, cap => if cap < max then growCap max fuel (cap * 2) else cap

def new (max : ℕ) : MapSp α := ChainTable.empty (growCap max max 1)

def insert (map : MapSp α) (key : CStr) (value : Option α) : MapSp α :=
  (map.insertAt key (calcHash key) value).1

/-- The slot of a key, which is put in where it is missing. -/
def queryInsert (map : MapSp α) (key : CStr) : MapSp α × ℕ :=
  ChainTable.queryInsert map key (calcHash key)

/-- The pointer under a key, or null; undefined where `strcmp` is handed the
null key of a fresh slot. -/
def query (map : MapSp α) (key : CStr) : Option (Option α) :=
  ChainTable.query map key (calcHash key)

/-- `query` in a map that has outlived the keys of `freed`: undefined, too, where
`strcmp` is handed one of them. -/
def queryLive (map : MapSp α) (freed : List CStr) (key : CStr) : Option (Option α) :=
  ChainTable.queryLive map freed key (calcHash key)

/-- The pointers that `_pbcM_sp_foreach` visits, in slot order. -/
def pointers (map : MapSp α) : List α := map.slots.filterMap (·.pointer)

/-! ### What the map holds -/

abbrev WF (map : MapSp α) : Prop := ChainTable.WF calcHash map

private theorem growCap_pow (max fuel : ℕ) {cap : ℕ} (h : ∃ k, cap = 2 ^ k) :
    ∃ k, growCap max fuel cap = 2 ^ k := by
  induction fuel generalizing cap with
  | zero => exact h
  | succ fuel ih =>
      rw [growCap]
      split
      · obtain ⟨k, rfl⟩ := h
        exact ih ⟨k + 1, by rw [Nat.pow_succ]⟩
      · exact h

private theorem growCap_eq {n fuel k : ℕ} (hfuel : n ≤ 2 ^ (k + fuel)) :
    growCap n fuel (2 ^ k) = 2 ^ max k (Nat.clog 2 n) := by
  induction fuel generalizing k with
  | zero => rw [growCap, Nat.max_eq_left (Nat.clog_le_of_le_pow (y := k) hfuel)]
  | succ fuel ih =>
      rw [growCap]
      split
      · rename_i hlt
        have hk : k < Nat.clog 2 n := (Nat.lt_clog_iff_pow_lt (by decide)).mpr hlt
        rw [← Nat.pow_succ, ih (by rwa [Nat.succ_add_eq_add_succ]), Nat.max_eq_right hk,
          Nat.max_eq_right (Nat.le_of_lt hk)]
      · rename_i hge
        rw [Nat.max_eq_left (Nat.clog_le_of_le_pow (Nat.le_of_not_lt hge))]

/-- The capacity is the least power of two with room for `max` entries. -/
theorem cap_new (max : ℕ) : (new max : MapSp α).cap = 2 ^ Nat.clog 2 max := by
  rw [new, ChainTable.cap_empty]
  have hgrow := growCap_eq (n := max) (k := 0)
    (by rw [Nat.zero_add]; exact Nat.le_of_lt Nat.lt_two_pow_self)
  rwa [Nat.pow_zero, Nat.max_eq_right (Nat.zero_le _)] at hgrow

theorem wf_new (max : ℕ) : (new max : MapSp α).WF := by
  obtain ⟨k, hk⟩ : ∃ k, growCap max max 1 = 2 ^ k := growCap_pow max max ⟨0, rfl⟩
  rw [WF, new, hk]
  exact ChainTable.wf_empty calcHash k

@[simp] theorem entries_new (max : ℕ) : (new max : MapSp α).entries = [] :=
  ChainTable.entries_empty _

/-- What is found in a map that was made for as many entries as it was given. -/
theorem query_insertAll_new {es : List (CStr × α)} {n : ℕ} (hroom : es.length ≤ n) {key : CStr}
    (hhash : calcHash key ≠ 0) :
    query (ChainTable.insertAll calcHash (new n) es) key =
      some (ChainTable.kept (2 ^ Nat.clog 2 n) calcHash key [] es) := by
  have hcap := cap_new (α := α) n
  rw [new, ChainTable.cap_empty] at hcap
  rw [new, hcap]
  exact ChainTable.query_insertAll_empty
    (Nat.le_trans hroom (Nat.le_pow_clog (by decide) n)) hhash

theorem query_of_queryLive {map : MapSp α} {freed : List CStr} {key : CStr} {r : Option α}
    (h : map.queryLive freed key = some r) : map.query key = some r :=
  ChainTable.query_of_queryLive h

/-- Where no key that is gone hashes as this one does, none is compared with it. -/
theorem queryLive_of_hash {map : MapSp α} (h : map.WF) {freed : List CStr} {key : CStr}
    (hfreed : ∀ k ∈ freed, calcHash k ≠ calcHash key) :
    map.queryLive freed key = map.query key :=
  ChainTable.queryLive_of_hash h.hash_eq hfreed

theorem wf_insert {map : MapSp α} (h : map.WF) (key : CStr) (value : Option α) :
    (map.insert key value).WF :=
  (ChainTable.insertAt_spec h key value).wf

theorem entries_insert {map : MapSp α} (h : map.WF) (key : CStr) (value : Option α) :
    (map.insert key value).entries.Perm ((key, value) :: map.entries) :=
  (ChainTable.insertAt_spec h key value).entries

end MapSp

/-! ## Numbers to pointers -/

structure IpSlot (α : Type) where
  id : ℤ
  pointer : Option α
  next : ℕ

/-- A map from numbers, as an array or as a hash table. -/
inductive MapIp (α : Type) where
  | array (cells : List (Option α))
  | hash (slots : List (IpSlot α))

namespace MapIp

variable {α : Type}

/-- The home slot of a number: its 32 bits, taken as unsigned. -/
def home (size : ℕ) (id : ℤ) : ℕ := (BitVec.ofInt 32 id).toNat % size

private def slotAt (slots : List (IpSlot α)) (i : ℕ) : IpSlot α := slots.getD i ⟨0, none, 0⟩

/-- The first slot without a pointer, from `i` on. -/
private def freeFrom (slots : List (IpSlot α)) : ℕ → ℕ → ℕ
  | 0, i => i
  | fuel + 1, i => if (slotAt slots i).pointer.isSome then freeFrom slots fuel (i + 1) else i

private def fillHash (size : ℕ) :
    List (ℤ × α) → ℕ → List (IpSlot α) → List (IpSlot α)
  | [], _, slots => slots
  | (id, p) :: table, empty, slots =>
      let h := home size id
      if (slotAt slots h).pointer.isNone then
        fillHash size table empty (slots.set h ⟨id, some p, (slotAt slots h).next⟩)
      else
        let e := freeFrom slots size empty
        let slots := slots.set e ⟨id, some p, (slotAt slots h).next⟩
        fillHash size table e (slots.set h { slotAt slots h with next := e + 1 })

/-- `_pbcM_ip_new_hash` -/
def newHash (table : List (ℤ × α)) : MapIp α :=
  .hash (fillHash table.length table 0 (List.replicate table.length ⟨0, none, 0⟩))

private def fillArray : List (ℤ × α) → List (Option α) → List (Option α)
  | [], cells => cells
  | (id, p) :: table, cells => fillArray table (cells.set id.toNat (some p))

/-- `_pbcM_ip_new`; the first row of an empty table is read although it is not there. -/
def new (table : List (ℤ × α)) : Option (MapIp α) :=
  match table with
  | [] => none
  | _ :: _ =>
      let size : ℤ := table.length
      let max := table.foldl (fun m row => if m < row.1 then row.1 else m) 0
      if table.any (fun row => row.1 < 0) ∨ size * 2 < max then some (newHash table)
      else some (.array (fillArray table (List.replicate (max.toNat + 1) none)))

private def walk (slots : List (IpSlot α)) (id : ℤ) : ℕ → ℕ → Option α
  | 0, _ => none
  | fuel + 1, i =>
      if (slotAt slots i).id = id then (slotAt slots i).pointer
      else match (slotAt slots i).next with
        | 0 => none
        | j + 1 => walk slots id fuel j

def query : MapIp α → ℤ → Option α
  | .array cells, id => if 0 ≤ id then (cells.getD id.toNat none) else none
  | .hash slots, id => walk slots id slots.length (home slots.length id)

/-- The numbers that can have a pointer. -/
def keys : MapIp α → List ℤ
  | .array cells => (List.range cells.length).map Int.ofNat
  | .hash slots => slots.map (·.id)

private theorem mem_ids_of_walk {slots : List (IpSlot α)} {id : ℤ} {fuel i : ℕ} {p : α}
    (h : walk slots id fuel i = some p) : id ∈ slots.map (·.id) := by
  induction fuel generalizing i with
  | zero => nomatch h
  | succ fuel ih =>
      rw [walk] at h
      split at h
      · rename_i hid
        by_cases hi : i < slots.length
        · have hslot : slotAt slots i = slots[i] := by simp [slotAt, List.getElem?_eq_getElem hi]
          exact List.mem_map.mpr ⟨slots[i], List.getElem_mem hi, hslot ▸ hid⟩
        · have hslot : slotAt slots i = ⟨0, none, 0⟩ := by
            simp [slotAt, List.getElem?_eq_none (Nat.le_of_not_lt hi)]
          rw [hslot] at h
          cases h
      · split at h
        · cases h
        · exact ih h

theorem mem_keys {map : MapIp α} {id : ℤ} {p : α} (h : map.query id = some p) : id ∈ map.keys := by
  cases map with
  | array cells =>
      rw [query] at h
      split at h
      · rename_i hpos
        refine List.mem_map.mpr ⟨id.toNat, List.mem_range.mpr ?_, Int.toNat_of_nonneg hpos⟩
        by_contra hge
        simp [List.getElem?_eq_none (Nat.le_of_not_lt hge)] at h
      · cases h
  | hash slots => exact mem_ids_of_walk h

/-! ### What a map of numbers holds -/

/-- The pointer that a table has for a number, if any. -/
def lookup (table : List (ℤ × α)) (id : ℤ) : Option α := (table.find? (·.1 = id)).map (·.2)

theorem lookup_of_mem {table : List (ℤ × α)} (hnodup : (table.map Prod.fst).Nodup) {id : ℤ}
    {p : α} (h : (id, p) ∈ table) : lookup table id = some p := by
  have hsome : (table.find? (·.1 = id)).isSome = true :=
    List.find?_isSome.mpr ⟨(id, p), h, by simp⟩
  obtain ⟨row, hrow⟩ := Option.isSome_iff_exists.mp hsome
  have hid : row.1 = id := by simpa using List.find?_some hrow
  have heq := List.inj_on_of_nodup_map hnodup (List.mem_of_find?_eq_some hrow) h hid
  simp [lookup, hrow, heq]

theorem lookup_of_not_mem {table : List (ℤ × α)} {id : ℤ} (h : ∀ p, (id, p) ∉ table) :
    lookup table id = none := by
  have hnone : table.find? (·.1 = id) = none := by
    refine List.find?_eq_none.mpr fun row hrow hid => h row.2 ?_
    obtain rfl : row.1 = id := by simpa using hid
    exact hrow
  simp [lookup, hnone]

section Hash

/-- A slot, as one of a table of chains; a slot without a pointer is free. -/
private def toSlot (s : IpSlot α) : ChainTable.Slot ℤ α :=
  ⟨s.pointer.map fun _ => s.id, 0, s.pointer, s.next⟩

private def ipTable (slots : List (IpSlot α)) : ChainTable ℤ α := ⟨0, slots.map toSlot⟩

private theorem slot_ipTable (slots : List (IpSlot α)) (i : ℕ) :
    (ipTable slots).slot i = toSlot (slotAt slots i) := by
  simp only [ChainTable.slot, ipTable, slotAt, List.getD_eq_getElem?_getD, List.getElem?_map]
  cases slots[i]? <;> rfl

private theorem setSlot_ipTable (slots : List (IpSlot α)) (i : ℕ) (s : IpSlot α) :
    (ipTable slots).setSlot i (toSlot s) = ipTable (slots.set i s) := by
  simp [ipTable, ChainTable.setSlot, List.map_set]

private theorem isSome_key_ipTable (slots : List (IpSlot α)) (i : ℕ) :
    ((ipTable slots).slot i).key.isSome = (slotAt slots i).pointer.isSome := by
  rw [slot_ipTable]
  simp [toSlot]

private theorem sweep_ipTable (slots : List (IpSlot α)) (fuel i : ℕ) :
    (ipTable slots).sweep fuel i = freeFrom slots fuel i := by
  induction fuel generalizing i with
  | zero => rfl
  | succ fuel ih => rw [ChainTable.sweep, freeFrom, isSome_key_ipTable, ih]

private theorem fill_ipTable (size : ℕ) (table : List (ℤ × α)) (mark : ℕ)
    (slots : List (IpSlot α)) (hsize : slots.length = size) :
    ChainTable.fill (home size) (fun _ => 0) table mark (ipTable slots) =
      ipTable (fillHash size table mark slots) := by
  induction table generalizing mark slots with
  | nil => rfl
  | cons row table ih =>
      obtain ⟨id, p⟩ := row
      have hcap : (ipTable slots).cap = size := by simp [ChainTable.cap, ipTable, hsize]
      have hnone : ((ipTable slots).slot (home size id)).key.isNone =
          (slotAt slots (home size id)).pointer.isNone := by
        rw [slot_ipTable]
        simp [toSlot]
      have hplace : ∀ (next : ℕ) (i : ℕ), (ipTable slots).setSlot i ⟨some id, 0, some p, next⟩ =
          ipTable (slots.set i ⟨id, some p, next⟩) := fun next i =>
        setSlot_ipTable slots i ⟨id, some p, next⟩
      have hlink : ∀ (slots : List (IpSlot α)) (i next : ℕ),
          (ipTable slots).setSlot i (((ipTable slots).slot i).setNext next) =
            ipTable (slots.set i { slotAt slots i with next := next }) := by
        intro slots i next
        rw [slot_ipTable, ← setSlot_ipTable]
        rfl
      have hnext : ((ipTable slots).slot (home size id)).next =
          (slotAt slots (home size id)).next := by
        rw [slot_ipTable]
        rfl
      rw [ChainTable.fill, fillHash]
      simp only [hnone, hnext, hcap, sweep_ipTable, hplace, hlink]
      split
      · exact ih _ _ (by simp [hsize])
      · exact ih _ _ (by simp [hsize])

private theorem filled_newHash {table : List (ℤ × α)} (hne : table ≠ []) :
    ∃ slots mark, newHash table = .hash slots ∧ slots.length = table.length ∧
      ChainTable.Filled (home table.length) (fun _ => 0) (ipTable slots) mark table.reverse := by
  have hlen := List.length_pos_of_ne_nil hne
  have hempty : (ChainTable.empty table.length : ChainTable ℤ α) =
      ipTable (List.replicate table.length ⟨0, none, 0⟩) := by
    simp [ChainTable.empty, ipTable, toSlot, ChainTable.Slot.clear]
  have hbase : ChainTable.Filled (home table.length) (fun _ => 0)
      (ChainTable.empty table.length : ChainTable ℤ α) 0 [] := ChainTable.filled_empty _ _ _
  obtain ⟨hcap, mark, hfilled⟩ := hbase.fill table
    (fun row _ => by rw [ChainTable.cap_empty]; exact Nat.mod_lt _ hlen) (by simp)
  rw [hempty, fill_ipTable _ _ _ _ (by simp), List.append_nil] at hfilled
  rw [hempty, fill_ipTable _ _ _ _ (by simp)] at hcap
  refine ⟨_, mark, rfl, ?_, hfilled⟩
  simpa [ChainTable.cap, ipTable] using hcap

private theorem walk_eq_find {slots : List (IpSlot α)} (id : ℤ) {i : ℕ} {l : List ℕ}
    (h : (ipTable slots).Chain i l) {fuel : ℕ} (hfuel : l.length ≤ fuel) :
    walk slots id fuel i =
      (l.find? fun j => ((ipTable slots).slot j).key = some id).bind
        fun j => ((ipTable slots).slot j).pointer := by
  have hkey : ∀ {j}, (ipTable slots).Taken j →
      (((ipTable slots).slot j).key = some id ↔ (slotAt slots j).id = id) := by
    intro j hj
    rw [ChainTable.Taken, slot_ipTable] at hj
    obtain ⟨p, hp⟩ := Option.isSome_iff_exists.mp (by simpa [toSlot] using hj)
    rw [slot_ipTable]
    simp [toSlot, hp]
  have hnext : ∀ j, ((ipTable slots).slot j).next = (slotAt slots j).next := fun j => by
    rw [slot_ipTable]
    rfl
  have hpointer : ∀ j, ((ipTable slots).slot j).pointer = (slotAt slots j).pointer := fun j => by
    rw [slot_ipTable]
    rfl
  induction h generalizing fuel with
  | @last i hi hlast =>
      obtain ⟨f, rfl⟩ : ∃ f, fuel = f + 1 := ⟨fuel - 1, by simp at hfuel; omega⟩
      rw [hnext] at hlast
      by_cases hid : (slotAt slots i).id = id
      · simp [walk, hid, (hkey hi).mpr hid, hpointer]
      · have hne := mt (hkey hi).mp hid
        simp [walk, hid, hlast, hne]
  | @link i j l hi hlink _ ih =>
      obtain ⟨f, rfl⟩ : ∃ f, fuel = f + 1 := ⟨fuel - 1, by simp at hfuel; omega⟩
      rw [hnext] at hlink
      by_cases hid : (slotAt slots i).id = id
      · simp [walk, hid, (hkey hi).mpr hid, hpointer]
      · have hne := mt (hkey hi).mp hid
        simpa [walk, hid, hlink, hne] using ih (by simpa using hfuel)

/-- The hash table answers with the pointer that its rows have. -/
theorem query_newHash {table : List (ℤ × α)} (hne : table ≠ [])
    (hnodup : (table.map Prod.fst).Nodup) (id : ℤ) :
    (newHash table).query id = lookup table id := by
  obtain ⟨slots, mark, hnew, hlen, hfilled⟩ := filled_newHash hne
  rw [hnew, query, hlen]
  have hcap : (ipTable slots).cap = table.length := by simp [ChainTable.cap, ipTable, hlen]
  rcases hfilled.find id with ⟨hfree, hno⟩ | ⟨l, hl, hfind⟩
  · rw [lookup_of_not_mem fun p hp => hno p (List.mem_reverse.mpr hp)]
    have hclear := hfilled.clear _ hfree
    obtain ⟨c, hc⟩ : ∃ c, table.length = c + 1 :=
      ⟨table.length - 1, by have := List.length_pos_of_ne_nil hne; omega⟩
    rw [slot_ipTable] at hclear
    have hpointer : (slotAt slots (home table.length id)).pointer = none :=
      congrArg ChainTable.Slot.pointer hclear
    have hnext : (slotAt slots (home table.length id)).next = 0 :=
      congrArg ChainTable.Slot.next hclear
    generalize home table.length id = i at *
    rw [hc, walk, hpointer, hnext]
    simp
  · rw [walk_eq_find id hl (by rw [← hcap]; exact hl.length_le)]
    rcases hfind with ⟨i, p, hfind, hslot, hmem⟩ | ⟨hfind, hno⟩
    · rw [hfind, lookup_of_mem hnodup (List.mem_reverse.mp hmem)]
      exact congrArg ChainTable.Slot.pointer hslot
    · rw [hfind, lookup_of_not_mem fun p hp => hno p (List.mem_reverse.mpr hp)]
      rfl

end Hash

private theorem length_fillArray (table : List (ℤ × α)) (cells : List (Option α)) :
    (fillArray table cells).length = cells.length := by
  induction table generalizing cells with
  | nil => rfl
  | cons row table ih => rw [fillArray, ih, List.length_set]

/-- A cell holds the pointer of its row, or what it held before. -/
private theorem getElem?_fillArray {table : List (ℤ × α)} (hnodup : (table.map Prod.fst).Nodup)
    {cells : List (Option α)} (hlt : ∀ row ∈ table, 0 ≤ row.1 ∧ row.1.toNat < cells.length) {n : ℕ}
    (hn : n < cells.length) :
    (fillArray table cells)[n]? = some ((lookup table n).or (cells[n]?.getD none)) := by
  induction table generalizing cells with
  | nil => simp [fillArray, lookup, hn]
  | cons row table ih =>
      obtain ⟨id, p⟩ := row
      rw [List.map_cons, List.nodup_cons] at hnodup
      obtain ⟨hpos, hid⟩ := hlt (id, p) List.mem_cons_self
      have hrest : ∀ row ∈ table, 0 ≤ row.1 ∧ row.1.toNat < (cells.set id.toNat (some p)).length := by
        intro row hrow
        rw [List.length_set]
        exact hlt row (List.mem_cons_of_mem _ hrow)
      rw [fillArray, ih hnodup.2 hrest (by rwa [List.length_set])]
      by_cases heq : id.toNat = n
      · obtain rfl : id = n := by omega
        have hno : lookup table n = none :=
          lookup_of_not_mem fun q hq => hnodup.1 (List.mem_map.mpr ⟨(_, q), hq, rfl⟩)
        have hhead : lookup ((↑n, p) :: table) n = some p := by simp [lookup]
        simp [hno, hhead, hn]
      · have hne : ¬ id = n := by omega
        simp [lookup, List.getElem?_set_ne heq, hne]

private theorem le_foldl_max (table : List (ℤ × α)) (m : ℤ) :
    m ≤ table.foldl (fun m row => if m < row.1 then row.1 else m) m ∧
      ∀ row ∈ table, row.1 ≤ table.foldl (fun m row => if m < row.1 then row.1 else m) m := by
  induction table generalizing m with
  | nil => simp
  | cons row table ih =>
      obtain ⟨hle, hall⟩ := ih (if m < row.1 then row.1 else m)
      have hfirst : m ≤ (if m < row.1 then row.1 else m) ∧
          row.1 ≤ (if m < row.1 then row.1 else m) := by
        split <;> omega
      rw [List.foldl_cons]
      refine ⟨by omega, fun row' hrow' => ?_⟩
      rcases List.mem_cons.mp hrow' with rfl | hrow'
      · omega
      · exact hall row' hrow'

/-- The array, which is made where the numbers are small, answers as the rows do. -/
private theorem query_fillArray {table : List (ℤ × α)} (hnodup : (table.map Prod.fst).Nodup)
    {n : ℕ} (hlt : ∀ row ∈ table, 0 ≤ row.1 ∧ row.1.toNat < n) (id : ℤ) :
    (MapIp.array (fillArray table (List.replicate n none))).query id = lookup table id := by
  rw [query]
  split
  · rename_i hpos
    obtain ⟨k, rfl⟩ := Int.eq_ofNat_of_zero_le hpos
    rw [List.getD_eq_getElem?_getD, Int.toNat_natCast]
    by_cases hk : k < n
    · rw [getElem?_fillArray hnodup (by simpa using hlt) (by simpa using hk)]
      simp [hk]
    · have hout : (fillArray table (List.replicate n none))[k]? = none := by
        rw [List.getElem?_eq_none]
        rw [length_fillArray, List.length_replicate]
        omega
      rw [hout, lookup_of_not_mem fun p hp => hk ?_]
      · rfl
      · have := (hlt _ hp).2
        simpa using this
  · rename_i hneg
    exact (lookup_of_not_mem fun p hp => hneg (hlt _ hp).1).symm

/-- Whichever form the map takes, it answers as its rows do. -/
theorem query_new {table : List (ℤ × α)} (hnodup : (table.map Prod.fst).Nodup) {map : MapIp α}
    (h : new table = some map) (id : ℤ) : map.query id = lookup table id := by
  cases htable : table with
  | nil =>
      rw [htable] at h
      cases h
  | cons row rows =>
      have hne : table ≠ [] := by simp [htable]
      rw [← htable]
      have hnew : new table =
          if table.any (fun row : ℤ × α => row.1 < 0) ∨
              (table.length : ℤ) * 2 <
                table.foldl (fun (m : ℤ) row => if m < row.1 then row.1 else m) 0
          then some (newHash table)
          else some (.array (fillArray table (List.replicate
            ((table.foldl (fun (m : ℤ) row => if m < row.1 then row.1 else m) 0).toNat + 1) none))) := by
        rw [htable]
        rfl
      rw [hnew] at h
      split at h
      · cases h
        exact query_newHash hne hnodup id
      · rename_i hsmall
        cases h
        have hneg : ∀ row ∈ table, 0 ≤ row.1 := by
          intro row hrow
          by_contra hlt
          exact hsmall (.inl (List.any_eq_true.mpr ⟨row, hrow, by simpa using hlt⟩))
        refine query_fillArray hnodup (fun row hrow => ⟨hneg row hrow, ?_⟩) id
        have := (le_foldl_max table 0).2 row hrow
        have := hneg row hrow
        omega

theorem new_ne_none {table : List (ℤ × α)} (h : table ≠ []) : ∃ map, new table = some map := by
  obtain ⟨row, rows, rfl⟩ := List.exists_cons_of_ne_nil h
  rw [new]
  split <;> exact ⟨_, rfl⟩

end MapIp

/-! ## Enum names to numbers -/

structure SiSlot where
  key : Option CStr
  hash : ℕ
  id : ℤ
  next : ℕ

/-- A map from the names of an enum; its slots are filled once. -/
structure MapSi where
  slots : List SiSlot

namespace MapSi

private def slotAt (slots : List SiSlot) (i : ℕ) : SiSlot := slots.getD i ⟨none, 0, 0, 0⟩

private def freeFrom (slots : List SiSlot) : ℕ → ℕ → ℕ
  | 0, i => i
  | fuel + 1, i => if (slotAt slots i).key.isSome then freeFrom slots fuel (i + 1) else i

private def fill (size : ℕ) : List (ℤ × CStr) → ℕ → List SiSlot → List SiSlot
  | [], _, slots => slots
  | (id, name) :: table, empty, slots =>
      let h := calcHash name % size
      if (slotAt slots h).key.isNone then
        fill size table empty
          (slots.set h ⟨some name, calcHash name, id, (slotAt slots h).next⟩)
      else
        let e := freeFrom slots size empty
        let slots := slots.set e ⟨some name, calcHash name, id, (slotAt slots h).next⟩
        fill size table e (slots.set h { slotAt slots h with next := e + 1 })

def new (table : List (ℤ × CStr)) : MapSi :=
  ⟨fill table.length table 0 (List.replicate table.length ⟨none, 0, 0, 0⟩)⟩

private def walk (slots : List SiSlot) (key : CStr) : ℕ → ℕ → Option (Option ℤ)
  | 0, _ => some none
  | fuel + 1, i =>
      let s := slotAt slots i
      if s.hash = calcHash key ∧ s.key = none then none
      else if s.hash = calcHash key ∧ s.key = some key then some (some s.id)
      else match s.next with
        | 0 => some none
        | j + 1 => walk slots key fuel j

/-- The number of a name, if it has one; undefined as for `MapSp.query`. -/
def query (map : MapSi) (key : CStr) : Option (Option ℤ) :=
  walk map.slots key map.slots.length (calcHash key % map.slots.length)

/-! ### What a map of enum names holds -/

/-- The number that a table has for a name, if any. -/
def lookup (table : List (ℤ × CStr)) (key : CStr) : Option ℤ :=
  (table.find? (·.2 = key)).map (·.1)

theorem lookup_of_mem {table : List (ℤ × CStr)} (hnodup : (table.map Prod.snd).Nodup) {id : ℤ}
    {key : CStr} (h : (id, key) ∈ table) : lookup table key = some id := by
  have hsome : (table.find? (·.2 = key)).isSome = true :=
    List.find?_isSome.mpr ⟨(id, key), h, by simp⟩
  obtain ⟨row, hrow⟩ := Option.isSome_iff_exists.mp hsome
  have hkey : row.2 = key := by simpa using List.find?_some hrow
  have heq := List.inj_on_of_nodup_map hnodup (List.mem_of_find?_eq_some hrow) h hkey
  simp [lookup, hrow, heq]

theorem lookup_of_not_mem {table : List (ℤ × CStr)} {key : CStr} (h : ∀ id, (id, key) ∉ table) :
    lookup table key = none := by
  have hnone : table.find? (·.2 = key) = none := by
    refine List.find?_eq_none.mpr fun row hrow hkey => h row.1 ?_
    obtain rfl : row.2 = key := by simpa using hkey
    exact hrow
  simp [lookup, hnone]

private def toSlot (s : SiSlot) : ChainTable.Slot CStr ℤ :=
  ⟨s.key, if s.key.isSome then s.hash else 0, if s.key.isSome then some s.id else none, s.next⟩

private def siTable (slots : List SiSlot) : ChainTable CStr ℤ := ⟨0, slots.map toSlot⟩

private theorem slot_siTable (slots : List SiSlot) (i : ℕ) :
    (siTable slots).slot i = toSlot (slotAt slots i) := by
  simp only [ChainTable.slot, siTable, slotAt, List.getD_eq_getElem?_getD, List.getElem?_map]
  cases slots[i]? <;> rfl

private theorem setSlot_siTable (slots : List SiSlot) (i : ℕ) (s : SiSlot) :
    (siTable slots).setSlot i (toSlot s) = siTable (slots.set i s) := by
  simp [siTable, ChainTable.setSlot, List.map_set]

private theorem key_siTable (slots : List SiSlot) (i : ℕ) :
    ((siTable slots).slot i).key = (slotAt slots i).key := by
  rw [slot_siTable]
  rfl

private theorem next_siTable (slots : List SiSlot) (i : ℕ) :
    ((siTable slots).slot i).next = (slotAt slots i).next := by
  rw [slot_siTable]
  rfl

private theorem sweep_siTable (slots : List SiSlot) (fuel i : ℕ) :
    (siTable slots).sweep fuel i = freeFrom slots fuel i := by
  induction fuel generalizing i with
  | zero => rfl
  | succ fuel ih => rw [ChainTable.sweep, freeFrom, key_siTable, ih]

private theorem fill_siTable (size : ℕ) (table : List (ℤ × CStr)) (mark : ℕ)
    (slots : List SiSlot) (hsize : slots.length = size) :
    ChainTable.fill (fun name => calcHash name % size) calcHash (table.map Prod.swap) mark
        (siTable slots) = siTable (fill size table mark slots) := by
  induction table generalizing mark slots with
  | nil => rfl
  | cons row table ih =>
      obtain ⟨id, name⟩ := row
      have hcap : (siTable slots).cap = size := by simp [ChainTable.cap, siTable, hsize]
      have hplace : ∀ (next : ℕ) (i : ℕ),
          (siTable slots).setSlot i ⟨some name, calcHash name, some id, next⟩ =
            siTable (slots.set i ⟨some name, calcHash name, id, next⟩) := fun next i =>
        setSlot_siTable slots i ⟨some name, calcHash name, id, next⟩
      have hlink : ∀ (slots : List SiSlot) (i next : ℕ),
          (siTable slots).setSlot i (((siTable slots).slot i).setNext next) =
            siTable (slots.set i { slotAt slots i with next := next }) := by
        intro slots i next
        rw [slot_siTable, ← setSlot_siTable]
        rfl
      rw [List.map_cons, Prod.swap_prod_mk, ChainTable.fill, fill]
      simp only [key_siTable, next_siTable, hcap, sweep_siTable, hplace, hlink]
      split
      · exact ih _ _ (by simp [hsize])
      · exact ih _ _ (by simp [hsize])

private theorem filled_new {table : List (ℤ × CStr)} (hne : table ≠ []) :
    ∃ mark, (new table).slots.length = table.length ∧
      ChainTable.Filled (fun name => calcHash name % table.length) calcHash
        (siTable (new table).slots) mark (table.map Prod.swap).reverse := by
  have hlen := List.length_pos_of_ne_nil hne
  have hempty : (ChainTable.empty table.length : ChainTable CStr ℤ) =
      siTable (List.replicate table.length ⟨none, 0, 0, 0⟩) := by
    simp [ChainTable.empty, siTable, toSlot, ChainTable.Slot.clear]
  have hbase : ChainTable.Filled (fun name => calcHash name % table.length) calcHash
      (ChainTable.empty table.length : ChainTable CStr ℤ) 0 [] := ChainTable.filled_empty _ _ _
  obtain ⟨hcap, mark, hfilled⟩ := hbase.fill (table.map Prod.swap)
    (fun row _ => by rw [ChainTable.cap_empty]; exact Nat.mod_lt _ hlen) (by simp)
  rw [hempty, fill_siTable _ _ _ _ (by simp), List.append_nil] at hfilled
  rw [hempty, fill_siTable _ _ _ _ (by simp)] at hcap
  refine ⟨mark, ?_, hfilled⟩
  simpa [ChainTable.cap, siTable, new] using hcap

/-- Along a chain, where every slot has a key, a walk stops at the key it looks for. -/
private theorem walk_eq_find {slots : List SiSlot}
    (hhash : ∀ j k, (slotAt slots j).key = some k → (slotAt slots j).hash = calcHash k)
    (key : CStr) {i : ℕ} {l : List ℕ} (h : (siTable slots).Chain i l) {fuel : ℕ}
    (hfuel : l.length ≤ fuel) :
    walk slots key fuel i =
      some ((l.find? fun j => ((siTable slots).slot j).key = some key).map
        fun j => (slotAt slots j).id) := by
  have hstep : ∀ {j}, (siTable slots).Taken j →
      ¬ ((slotAt slots j).hash = calcHash key ∧ (slotAt slots j).key = none) ∧
      ((slotAt slots j).hash = calcHash key ∧ (slotAt slots j).key = some key ↔
        (slotAt slots j).key = some key) := by
    intro j hj
    rw [ChainTable.Taken, key_siTable] at hj
    refine ⟨fun hnone => ?_, fun hkey => hkey.2, fun hkey => ⟨hhash j key hkey, hkey⟩⟩
    simp [hnone.2] at hj
  induction h generalizing fuel with
  | @last i hi hlast =>
      obtain ⟨f, rfl⟩ : ∃ f, fuel = f + 1 := ⟨fuel - 1, by simp at hfuel; omega⟩
      obtain ⟨hne, hiff⟩ := hstep hi
      rw [next_siTable] at hlast
      by_cases hkey : (slotAt slots i).key = some key
      · simp [walk, hkey, key_siTable, hhash i key hkey]
      · simp [walk, hne, hkey, key_siTable, hlast]
  | @link i j l hi hlink _ ih =>
      obtain ⟨f, rfl⟩ : ∃ f, fuel = f + 1 := ⟨fuel - 1, by simp at hfuel; omega⟩
      obtain ⟨hne, hiff⟩ := hstep hi
      rw [next_siTable] at hlink
      by_cases hkey : (slotAt slots i).key = some key
      · simp [walk, hkey, key_siTable, hhash i key hkey]
      · simpa [walk, hne, hiff, hkey, key_siTable, hlink] using ih (by simpa using hfuel)

/-- The names of an enum are looked up as its rows have them, and nothing else is. -/
theorem query_new {table : List (ℤ × CStr)} (hne : table ≠ [])
    (hnodup : (table.map Prod.snd).Nodup) (key : CStr) :
    (new table).query key = some (lookup table key) := by
  obtain ⟨mark, hlen, hfilled⟩ := filled_new hne
  rw [query, hlen]
  generalize (new table).slots = slots at *
  have hcap : (siTable slots).cap = table.length := by simp [ChainTable.cap, siTable, hlen]
  have hmem : ∀ {id}, (key, id) ∈ (table.map Prod.swap).reverse ↔ (id, key) ∈ table := by
    intro id
    rw [List.mem_reverse, List.mem_map]
    constructor
    · rintro ⟨⟨id', key'⟩, hrow, heq⟩
      obtain ⟨rfl, rfl⟩ := Prod.mk.inj heq
      exact hrow
    · intro hrow
      exact ⟨(id, key), hrow, rfl⟩
  have hhash : ∀ j k, (slotAt slots j).key = some k → (slotAt slots j).hash = calcHash k := by
    intro j k hk
    have := hfilled.hash_eq j k (by rwa [key_siTable])
    rw [slot_siTable] at this
    simpa [toSlot, hk] using this
  -- a table of as many rows as slots has no free slot, so no key is missing on the way
  have hfull : ∀ i < table.length, (siTable slots).Taken i := by
    intro i hi
    by_contra hfree
    have hlt : (siTable slots).entries.length < (siTable slots).cap := by
      refine Nat.lt_of_le_of_ne (ChainTable.entries_length_le _) fun heq => hfree ?_
      have hall := List.countP_eq_length.mp
        (List.length_filterMap_eq_countP.symm.trans heq) ((siTable slots).slot i)
        (by rw [ChainTable.slots_split (i := i) (by rw [hcap]; exact hi)]; simp)
      simpa [ChainTable.Slot.entry, ChainTable.Taken] using hall
    have heq := hfilled.length_eq
    rw [List.length_reverse, List.length_map] at heq
    omega
  rcases hfilled.find key with ⟨hfree, -⟩ | ⟨l, hl, hfind⟩
  · exact absurd (hfull _ (Nat.mod_lt _ (List.length_pos_of_ne_nil hne))) hfree
  · rw [walk_eq_find hhash key hl (by rw [← hcap]; exact hl.length_le)]
    rcases hfind with ⟨i, id, hfind, hslot, hrow⟩ | ⟨hfind, hno⟩
    · rw [hfind, lookup_of_mem hnodup (hmem.mp hrow)]
      have hpointer := congrArg ChainTable.Slot.pointer hslot
      have hkey := congrArg ChainTable.Slot.key hslot
      rw [slot_siTable] at hpointer hkey
      have hkey' : (slotAt slots i).key = some key := hkey
      simpa [toSlot, hkey'] using hpointer
    · rw [hfind, lookup_of_not_mem fun id hid => hno id (hmem.mpr hid)]
      rfl

end MapSi

end Pbc
