-- SUMMARY: What write_all and read_all move, whatever the system calls answer: bytes in order, each of them once, and nothing beyond the size.
import HdClient.Client.NetUtils

/-! # Exact transfers

The rest of the program looks only at the bytes that `read_all` has stored.
Here its buffer is memory, of which it may overwrite any part. -/

namespace HdClient

open Pbc Conn

/-! ## The buffer of read_all -/

/-- Memory in which `bytes` are stored from position `i` on. -/
def store (mem : List UInt8) (i : ℕ) (bytes : List UInt8) : List UInt8 :=
  mem.take i ++ bytes ++ mem.drop (i + bytes.length)

/-- The loop of `read_all`; undefined where it stores behind the memory. -/
def readLoopInto (size : ℕ) : ℕ → List UInt8 → ℕ → Prog Conn (ℤ × List UInt8)
  | 0, _, _ => .await
  | fuel + 1, buffer, bytes_read =>
      if bytes_read < size then do
        match ← Conn.read (size - bytes_read) with
        | some bytes =>
            if buffer.length < bytes_read + bytes.length then .undefined
            else readLoopInto size fuel (store buffer bytes_read bytes) (bytes_read + bytes.length)
        | none => do
            print .errorReading
            pure (-1, buffer)
      else pure (0, buffer)

/-- `read_all`; `buffer` is the memory at a pointer that is not null, and what
it has become is returned with the return code. -/
def readAllInto (buffer : Option (List UInt8)) (size : ℤ) :
    Prog Conn (ℤ × Option (List UInt8)) :=
  if size < 0 then do
    print .sizeNegative
    pure (-1, buffer)
  else match buffer with
    | none => do
        print .readBufferNull
        pure (-1, none)
    | some mem => do
        let s ← .get
        let (rc, mem) ← readLoopInto size.toNat (s.reads.length + 1) mem 0
        pure (rc, some mem)

/-- Memory whose first bytes are those that were stored. -/
def stored (mem bytes : List UInt8) : List UInt8 := bytes ++ mem.drop bytes.length

@[simp] theorem stored_nil (mem : List UInt8) : stored mem [] = mem := rfl

theorem stored_length {mem bytes : List UInt8} (h : bytes.length ≤ mem.length) :
    (stored mem bytes).length = mem.length := by
  rw [stored, List.length_append, List.length_drop]
  omega

/-- Memory begins with what was stored, and does not change behind it. -/
theorem stored_spec {mem bytes : List UInt8} (h : bytes.length ≤ mem.length) :
    bytes <+: stored mem bytes ∧ (stored mem bytes).length = mem.length ∧
      ∀ i, bytes.length ≤ i → (stored mem bytes)[i]? = mem[i]? := by
  refine ⟨List.prefix_append _ _, stored_length h, fun i hi => ?_⟩
  rw [stored, List.getElem?_append_right hi, List.getElem?_drop, Nat.add_sub_cancel' hi]

/-- Storing behind what was stored. -/
theorem store_stored (mem bytes more : List UInt8) :
    store (stored mem bytes) bytes.length more = stored mem (bytes ++ more) := by
  have htake : (bytes ++ mem.drop bytes.length).take bytes.length = bytes := List.take_left
  have hdrop : (bytes ++ mem.drop bytes.length).drop (bytes.length + more.length) =
      mem.drop (bytes.length + more.length) := by
    rw [← List.drop_drop, List.drop_left, List.drop_drop]
  unfold store stored
  rw [htake, hdrop, List.length_append]

private theorem readLoopInto_run {size fuel : ℕ} {mem : List UInt8} {s : Conn}
    (hmem : size ≤ mem.length) (bytes : List UInt8) (hbytes : bytes.length ≤ size) :
    (readLoopInto size fuel (stored mem bytes) bytes.length).run s =
      ((readLoop size fuel bytes).run s).andThen fun r => pure (r.1, stored mem r.2) := by
  induction fuel generalizing bytes s with
  | zero => rfl
  | succ fuel ih =>
      rw [readLoopInto, readLoop]
      split
      · rename_i hlt
        obtain ⟨proxy, incoming, outgoing, reads, writes, allocs, printed⟩ := s
        cases reads with
        | nil => rfl
        | cons a as =>
            cases a with
            | fail => rfl
            | upTo k =>
                simp only [Prog.run_bind, Conn.read, Outcome.andThen_ret]
                generalize hmore : incoming.take
                  (min k (min (size - bytes.length) incoming.length)) = more
                -- no more is read than was asked for, which is what is still missing
                have hfit : bytes.length + more.length ≤ size := by
                  rw [← hmore, List.length_take]
                  omega
                rw [if_neg (by rw [stored_length (by omega)]; omega), store_stored,
                  ← List.length_append]
                exact ih _ (by rw [List.length_append]; exact hfit)
      · rfl

/-- With its buffer in memory, `read_all` stores what it is otherwise said to have stored. -/
theorem readAllInto_run {mem : List UInt8} {size : ℤ} (hmem : size.toNat ≤ mem.length) (s : Conn) :
    (readAllInto (some mem) size).run s =
      ((readAll true size).run s).andThen fun r => pure (r.1, some (stored mem r.2)) := by
  unfold readAllInto readAll
  split
  · rfl
  · have hloop : (readLoopInto size.toNat (s.reads.length + 1) mem 0).run s =
        ((readLoop size.toNat (s.reads.length + 1) []).run s).andThen
          fun r => pure (r.1, stored mem r.2) := readLoopInto_run hmem [] (Nat.zero_le _)
    simp only [Bool.not_true, Bool.false_eq_true, if_false, Prog.run_bind, Prog.run_get,
      Outcome.andThen_ret]
    rw [hloop]
    cases (readLoop size.toNat (s.reads.length + 1) []).run s <;> rfl

/-! ## Writing -/

/-- A call of `write_all` for the first `size` bytes of a buffer. -/
structure WritesExactly (mem : List UInt8) (size : ℤ) (s : Conn) : Prop where
  defined : ∀ t, (writeAll (some mem) size).run s ≠ .undefined t
  /-- It is left without a result only for want of an answer. -/
  waits : ∀ t, (writeAll (some mem) size).run s = .wait t → t.writes = []
  /-- The socket has taken a prefix of the bytes: all of them if zero is returned. -/
  moves : ∀ rc t, (writeAll (some mem) size).run s = .ret rc t → (rc = 0 ∨ rc = -1) ∧
    ∃ sent, sent <+: mem.take size.toNat ∧ t.outgoing = s.outgoing ++ sent ∧
      (rc = 0 ↔ sent = mem.take size.toNat)
  /-- An answer that fails while bytes are missing is the last one that is asked for. -/
  stops : ∀ used left t, s.writes = used ++ .fail :: left →
    (writeAll (some mem) size).run { s with writes := used } = .wait t →
    ∃ u, (writeAll (some mem) size).run s = .ret (-1) u ∧ u.writes = left ∧
      u.outgoing = t.outgoing

theorem writesExactly {mem : List UInt8} {size : ℤ} (hsize : 0 ≤ size)
    (hmem : size.toNat ≤ mem.length) (s : Conn) : WritesExactly mem size s := by
  have hlen : (mem.take size.toNat).length = size.toNat := List.length_take_of_le hmem
  have hrun := writeAll_run hsize hmem
  constructor
  · intro t h
    rw [hrun, wroteAll] at h
    split at h <;> cases h
  · intro t h
    rw [hrun, wroteAll] at h
    split at h
    · cases h
    · cases h
    · rename_i hend
      cases h
      exact Transfer.left_of_waiting hend
  · intro rc t h
    rw [hrun, wroteAll] at h
    split at h
    · rename_i hend
      have hcarried := Transfer.carried_of_done hend
      cases h
      refine ⟨.inl rfl, _, List.take_prefix _ _, rfl, iff_of_true rfl ?_⟩
      exact List.take_of_length_le (by omega)
    · rename_i hend
      have hcarried := Transfer.carried_lt (by rw [hend]; decide)
      cases h
      refine ⟨.inr rfl, _, List.take_prefix _ _, rfl, iff_of_false (by decide) fun hall => ?_⟩
      have hall := congrArg List.length hall
      rw [List.length_take] at hall
      omega
    · cases h
  · intro used left t hwrites h
    rw [hrun, wroteAll] at h
    split at h
    · cases h
    · cases h
    · rename_i hend
      cases h
      rw [hrun, hwrites, Transfer.carry_fail_of_waiting left hend]
      exact ⟨_, rfl, rfl, rfl⟩

/-! ## Reading -/

/-- A call of `read_all` for `size` bytes into a buffer. -/
structure ReadsExactly (mem : List UInt8) (size : ℤ) (s : Conn) : Prop where
  defined : ∀ t, (readAllInto (some mem) size).run s ≠ .undefined t
  /-- It is left without a result only for want of an answer. -/
  waits : ∀ t, (readAllInto (some mem) size).run s = .wait t → t.reads = []
  /-- The buffer begins with what was taken from the stream, `size` bytes of it if
  zero is returned, and is otherwise as it was. -/
  moves : ∀ rc buffer t, (readAllInto (some mem) size).run s = .ret (rc, buffer) t →
    (rc = 0 ∨ rc = -1) ∧ ∃ bytes after, buffer = some after ∧
      s.incoming = bytes ++ t.incoming ∧ bytes.length ≤ size.toNat ∧ bytes <+: after ∧
      after.length = mem.length ∧ (∀ i, bytes.length ≤ i → after[i]? = mem[i]?) ∧
      (rc = 0 ↔ bytes.length = size.toNat)
  /-- An answer that fails while bytes are missing is the last one that is asked for. -/
  stops : ∀ used left t, s.reads = used ++ .fail :: left →
    (readAllInto (some mem) size).run { s with reads := used } = .wait t →
    ∃ buffer u, (readAllInto (some mem) size).run s = .ret (-1, buffer) u ∧ u.reads = left ∧
      u.incoming = t.incoming

theorem readsExactly {mem : List UInt8} {size : ℤ} (hsize : 0 ≤ size)
    (hmem : size.toNat ≤ mem.length) (s : Conn) : ReadsExactly mem size s := by
  have hrun : ∀ s : Conn, (readAllInto (some mem) size).run s =
      (haveRead s [] (Transfer.carry s.reads size.toNat s.incoming.length)).andThen
        fun r => pure (r.1, some (stored mem r.2)) := by
    intro s
    rw [readAllInto_run hmem, readAll_run hsize]
  have hcarried := Transfer.carried_le s.reads size.toNat s.incoming.length
  have hlen : (s.incoming.take
      (Transfer.carry s.reads size.toNat s.incoming.length).carried).length =
        (Transfer.carry s.reads size.toNat s.incoming.length).carried :=
    List.length_take_of_le (by omega)
  constructor
  · intro t h
    rw [hrun, haveRead] at h
    split at h <;> cases h
  · intro t h
    rw [hrun, haveRead] at h
    split at h
    · cases h
    · cases h
    · rename_i hend
      cases h
      exact Transfer.left_of_waiting hend
  · intro rc buffer t h
    have hroom := Nat.le_trans (Nat.le_of_eq hlen) (by omega : _ ≤ mem.length)
    obtain ⟨hbegins, hwhole, hrest⟩ := stored_spec hroom
    rw [hrun, haveRead] at h
    split at h
    · rename_i hend
      cases h
      refine ⟨.inl rfl, _, _, rfl, (List.take_append_drop _ _).symm, by rw [hlen]; omega, hbegins,
        hwhole, hrest, iff_of_true rfl ?_⟩
      rw [hlen, Transfer.carried_of_done hend]
    · rename_i hend
      have hlt := Transfer.carried_lt (by rw [hend]; decide)
      cases h
      refine ⟨.inr rfl, _, _, rfl, (List.take_append_drop _ _).symm, by rw [hlen]; omega, hbegins,
        hwhole, hrest, iff_of_false (by simp) ?_⟩
      omega
    · cases h
  · intro used left t hreads h
    rw [hrun, haveRead] at h
    split at h
    · cases h
    · cases h
    · rename_i hend
      cases h
      rw [hrun, hreads, Transfer.carry_fail_of_waiting left hend]
      exact ⟨_, _, rfl, rfl, rfl⟩

/-! ## Both -/

/-- What the two loops do with a buffer of `size` bytes: they move some of them, in
order, and nothing is asked of the socket for a size that is negative. -/
structure TransfersExactly (mem : List UInt8) (size : ℤ) (s : Conn) : Prop where
  writes : 0 ≤ size → WritesExactly mem size s
  reads : 0 ≤ size → ReadsExactly mem size s
  writes_negative : size < 0 →
    (writeAll (some mem) size).run s = .ret (-1) (s.printing .sizeNegative)
  reads_negative : size < 0 →
    (readAllInto (some mem) size).run s = .ret (-1, some mem) (s.printing .sizeNegative)

/-- The loops transfer exactly, into and out of every buffer that is large enough. -/
theorem transfersExactly {mem : List UInt8} {size : ℤ} (hmem : size.toNat ≤ mem.length) (s : Conn) :
    TransfersExactly mem size s where
  writes hsize := writesExactly hsize hmem s
  reads hsize := readsExactly hsize hmem s
  writes_negative hneg := by
    rw [writeAll, if_pos hneg]
    rfl
  reads_negative hneg := by
    rw [readAllInto, if_pos hneg]
    rfl

/-- A peer that sends four bytes, on a socket that carries a byte or two at a time. -/
def haltingConn : Conn where
  proxy := ⟨0, .client, .rm, .lit "protocol", -1⟩
  incoming := [7, 8, 9, 10]
  outgoing := []
  reads := [.upTo 2, .upTo 0, .upTo 5, .fail]
  writes := [.upTo 1, .fail, .upTo 2]
  allocs := []
  printed := []

theorem transfersExactly_halting : TransfersExactly [1, 2, 3, 4] 3 haltingConn :=
  transfersExactly (by decide) haltingConn

example : ((readAllInto (some [1, 2, 3, 4]) 3).run haltingConn).value? =
    some (0, some [7, 8, 9, 4]) := by decide

example : ((writeAll (some [1, 2, 3, 4]) 3).run haltingConn).state.outgoing = [1] := by decide

end HdClient
