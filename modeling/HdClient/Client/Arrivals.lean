-- SUMMARY: Reading calls that come to the same however their bytes arrive, and reading calls that never come to an end.
import HdClient.Client.HadoopRpcUtils

/-! # Arrivals

The bytes of a response arrive in reads of any size. A call *gives* a value
when it returns that value however the bytes arrive, and it *hangs* when it
asks for more bytes forever. -/

namespace HdClient

open Pbc Conn

/-! ## Connections that are read from -/

/-- Memory is there when the next answer of `malloc` is not a failure. -/
def Conn.HasMemory (s : Conn) : Prop := s.allocs.head? ≠ some false

instance (s : Conn) : Decidable s.HasMemory := inferInstanceAs (Decidable (_ ≠ _))

theorem hasMemory_of_all {s : Conn} (h : ∀ a ∈ s.allocs, a = true) : s.HasMemory := by
  intro hhead
  exact Bool.noConfusion (h false (List.mem_of_head? hhead))

def Conn.tookMemory (s : Conn) : Conn := { s with allocs := s.allocs.tail }

theorem hasMemory_tookMemory_of_all {s : Conn} (h : ∀ a ∈ s.allocs, a = true) :
    s.tookMemory.HasMemory :=
  hasMemory_of_all fun a ha => h a (List.mem_of_mem_tail ha)

theorem malloc_run {s : Conn} (h : s.HasMemory) : malloc.run s = .ret true s.tookMemory := by
  obtain ⟨proxy, incoming, outgoing, reads, writes, allocs, printed⟩ := s
  cases allocs with
  | nil => rfl
  | cons a as =>
      cases a with
      | false => exact absurd rfl h
      | true => rfl

theorem malloc_run_null {s : Conn} (h : ¬ s.HasMemory) : malloc.run s = .ret false s.tookMemory := by
  obtain ⟨proxy, incoming, outgoing, reads, writes, allocs, printed⟩ := s
  cases allocs with
  | nil => exact absurd nofun h
  | cons a as =>
      cases a with
      | false => rfl
      | true => exact absurd nofun h

def Conn.setIncoming (s : Conn) (bytes : List UInt8) (as : List Ans) : Conn :=
  { s with incoming := bytes, reads := as }

@[simp] theorem Conn.incoming_setIncoming (s : Conn) (bytes : List UInt8) (as : List Ans) :
    (s.setIncoming bytes as).incoming = bytes := rfl
@[simp] theorem Conn.reads_setIncoming (s : Conn) (bytes : List UInt8) (as : List Ans) :
    (s.setIncoming bytes as).reads = as := rfl
@[simp] theorem Conn.proxy_setIncoming (s : Conn) (bytes : List UInt8) (as : List Ans) :
    (s.setIncoming bytes as).proxy = s.proxy := rfl
@[simp] theorem Conn.proxy_tookMemory (s : Conn) : s.tookMemory.proxy = s.proxy := rfl
@[simp] theorem Conn.incoming_tookMemory (s : Conn) : s.tookMemory.incoming = s.incoming := rfl
@[simp] theorem Conn.reads_tookMemory (s : Conn) : s.tookMemory.reads = s.reads := rfl

/-- The connection with other answers of `read`. -/
def Conn.withReads (s : Conn) (as : List Ans) : Conn := { s with reads := as }

/-- The connection with `n` more bytes read. -/
def Conn.dropping (s : Conn) (n : ℕ) : Conn := { s with incoming := s.incoming.drop n }

@[simp] theorem Conn.incoming_withReads (s : Conn) (as : List Ans) :
    (s.withReads as).incoming = s.incoming := rfl
@[simp] theorem Conn.reads_withReads (s : Conn) (as : List Ans) : (s.withReads as).reads = as := rfl
@[simp] theorem Conn.proxy_withReads (s : Conn) (as : List Ans) :
    (s.withReads as).proxy = s.proxy := rfl
@[simp] theorem Conn.incoming_dropping (s : Conn) (n : ℕ) :
    (s.dropping n).incoming = s.incoming.drop n := rfl
@[simp] theorem Conn.incoming_printing (s : Conn) (d : Diag) :
    (s.printing d).incoming = s.incoming := rfl

theorem Conn.dropping_dropping (s : Conn) (m n : ℕ) :
    (s.dropping m).dropping n = s.dropping (m + n) := by
  simp [dropping, List.drop_drop]

theorem Conn.withReads_self (s : Conn) : s.withReads s.reads = s := rfl

/-! ## The rules -/

variable {α β : Type} {x : Prog Conn α} {f : α → Prog Conn β} {s u v : Conn} {a : α} {b : β}
  {m n : ℕ}

/-- However its bytes arrive, `x` returns `a` and leaves `u`, after at most `cost` reads. -/
def Gives (cost : ℕ) (x : Prog Conn α) (s : Conn) (a : α) (u : Conn) : Prop :=
  ∀ as, Transfer.Live as → cost ≤ as.length →
    ∃ left, left <:+ as ∧ as.length ≤ left.length + cost ∧
      x.run (s.withReads as) = .ret a (u.withReads left)

/-- However its bytes arrive, `x` never stops asking for more, once `cost` reads were made. -/
def Hangs (cost : ℕ) (x : Prog Conn α) (s : Conn) : Prop :=
  ∀ as, Transfer.Live as → cost ≤ as.length → ∃ u, x.run (s.withReads as) = .wait u

theorem Gives.mono (h : Gives m x s a u) (hle : m ≤ n) : Gives n x s a u := by
  intro as hlive hlen
  obtain ⟨left, hsuffix, hcost, hrun⟩ := h as hlive (Nat.le_trans hle hlen)
  exact ⟨left, hsuffix, by omega, hrun⟩

theorem Hangs.mono (h : Hangs m x s) (hle : m ≤ n) : Hangs n x s :=
  fun as hlive hlen => h as hlive (Nat.le_trans hle hlen)

theorem gives_pure (a : α) (s : Conn) : Gives 0 (pure a) s a s :=
  fun as _ _ => ⟨as, List.suffix_refl as, Nat.le_refl _, rfl⟩

theorem Gives.bind (hx : Gives m x s a u) (hf : Gives n (f a) u b v) :
    Gives (m + n) (x >>= f) s b v := by
  intro as hlive hlen
  obtain ⟨mid, hsuffix, hcost, hrun⟩ := hx as hlive (by omega)
  obtain ⟨left, hsuffix', hcost', hrun'⟩ :=
    hf mid (fun a ha => hlive a (hsuffix.subset ha)) (by omega)
  refine ⟨left, hsuffix'.trans hsuffix, by omega, ?_⟩
  rw [Prog.run_bind, hrun, Outcome.andThen_ret, hrun']

theorem Gives.bind_hangs (hx : Gives m x s a u) (hf : Hangs n (f a) u) :
    Hangs (m + n) (x >>= f) s := by
  intro as hlive hlen
  obtain ⟨mid, hsuffix, hcost, hrun⟩ := hx as hlive (by omega)
  obtain ⟨w, hwait⟩ := hf mid (fun a ha => hlive a (hsuffix.subset ha)) (by omega)
  exact ⟨w, by rw [Prog.run_bind, hrun, Outcome.andThen_ret, hwait]⟩

theorem Hangs.bind (hx : Hangs m x s) : Hangs m (x >>= f) s := by
  intro as hlive hlen
  obtain ⟨u, hwait⟩ := hx as hlive hlen
  exact ⟨u, by rw [Prog.run_bind, hwait, Outcome.andThen_wait]⟩

theorem gives_print (d : Diag) (s : Conn) : Gives 0 (print d) s () (s.printing d) :=
  fun as _ _ => ⟨as, List.suffix_refl as, Nat.le_refl _, rfl⟩

theorem gives_malloc (h : s.HasMemory) : Gives 0 malloc s true s.tookMemory := by
  intro as _ _
  exact ⟨as, List.suffix_refl as, Nat.le_refl _, malloc_run (s := s.withReads as) h⟩

theorem gives_malloc_null (h : ¬ s.HasMemory) : Gives 0 malloc s false s.tookMemory := by
  intro as _ _
  exact ⟨as, List.suffix_refl as, Nat.le_refl _, malloc_run_null (s := s.withReads as) h⟩

theorem read_run {k : ℕ} {as : List Ans} (hreads : s.reads = .upTo k :: as) (n : ℕ) :
    (Conn.read n).run s =
      .ret (some (s.incoming.take (min k (min n s.incoming.length))))
        (s.setIncoming (s.incoming.drop (min k (min n s.incoming.length))) as) := by
  simp only [Conn.read, hreads]
  rfl

/-- Bytes that are on the stream are read. -/
theorem gives_readAll (h : n ≤ s.incoming.length) :
    Gives n (readAll true n) s (0, s.incoming.take n) (s.dropping n) := by
  intro as hlive hlen
  obtain ⟨hdone, hleft⟩ := hlive.carry_done h hlen
  refine ⟨_, Transfer.left_isSuffix as n s.incoming.length, hleft, ?_⟩
  rw [readAll_run (by omega), Int.toNat_natCast, haveRead]
  simp [hdone, Transfer.carried_of_done hdone, Conn.received, Conn.withReads, Conn.dropping]

/-- Bytes that never come are waited for. -/
theorem hangs_readAll (h : s.incoming.length < n) : Hangs 0 (readAll true n) s := by
  intro as hlive _
  have hwait := hlive.sound.waiting_of_short h
  refine ⟨(s.withReads as).received (Transfer.carry as n s.incoming.length), ?_⟩
  rw [readAll_run (by omega), Int.toNat_natCast, haveRead]
  simp [hwait]

/-- Nothing is read for a negative size. -/
theorem gives_readAll_negative {size : ℤ} (h : size < 0) :
    Gives 0 (readAll true size) s (-1, []) (s.printing .sizeNegative) := by
  rw [readAll, if_pos h]
  exact (gives_print _ s).bind (n := 0) (gives_pure _ _)

/-! ## Exceptions -/

/-- A string behind its length. -/
def lengthPrefixed (string : List UInt8) : List UInt8 := Word.be32 string.length ++ string

theorem lengthPrefixed_length (string : List UInt8) :
    (lengthPrefixed string).length = 4 + string.length := by
  rw [lengthPrefixed, List.length_append, Word.be32_length]

private theorem swapped_length {n : ℕ} (h : n < 2 ^ 31) :
    (intEndianSwap (Word.ofLe (Word.be32 n))).toInt = n := by
  rw [intEndianSwap_ofLe, BitVec.toInt_eq_toNat_of_lt] <;> rw [BitVec.toNat_ofNat] <;> omega

private theorem take_word {s : Conn} {n : ℕ} {rest : List UInt8}
    (hin : s.incoming = Word.be32 n ++ rest) :
    s.incoming.take 4 = Word.be32 n ∧ (s.dropping 4).incoming = rest ∧ 4 ≤ s.incoming.length := by
  rw [Conn.incoming_dropping, hin]
  exact ⟨rfl, rfl, by simp⟩

/-- A string whose length is cut short is waited for. -/
theorem hangs_readExceptionString_word (oom : Diag) (h : s.incoming.length < 4) :
    Hangs 0 (readExceptionString oom) s :=
  (hangs_readAll h).bind

/-- Without memory for it, only the length of a string is read. -/
theorem gives_readExceptionString_null (oom : Diag) {rest : List UInt8}
    (hin : s.incoming = Word.be32 n ++ rest) (hmem : ¬ s.HasMemory) :
    Gives 4 (readExceptionString oom) s none ((s.dropping 4).tookMemory.printing oom) := by
  obtain ⟨-, -, hlen⟩ := take_word hin
  refine (gives_readAll hlen).bind (n := 0) ?_
  dsimp only
  rw [if_neg (by decide)]
  refine (gives_malloc_null (s := s.dropping 4) hmem).bind (n := 0) ?_
  exact (gives_print oom _).bind (n := 0) (gives_pure _ _)

/-- A string with a negative length is a failure, and only its length is read. -/
theorem gives_readExceptionString_negative (oom : Diag) {rest : List UInt8}
    (hin : s.incoming = Word.be32 n ++ rest) (hmem : s.HasMemory)
    (hneg : (BitVec.ofNat 32 n).toInt < 0) :
    Gives 4 (readExceptionString oom) s none
      (((s.dropping 4).tookMemory.printing .sizeNegative).printing .readExceptionFailed) := by
  obtain ⟨htake, -, hlen⟩ := take_word hin
  refine (gives_readAll hlen).bind (n := 0) ?_
  dsimp only
  rw [if_neg (by decide)]
  refine (gives_malloc (s := s.dropping 4) hmem).bind (n := 0) ?_
  rw [if_neg (by decide), htake, intEndianSwap_ofLe]
  refine (gives_readAll_negative hneg).bind (n := 0) ?_
  dsimp only
  rw [if_pos (by decide)]
  exact (gives_print _ _).bind (n := 0) (gives_pure _ _)

/-- A string of which bytes are missing is waited for. -/
theorem hangs_readExceptionString_body (oom : Diag) {rest : List UInt8} (hn : n < 2 ^ 31)
    (hin : s.incoming = Word.be32 n ++ rest) (hmem : s.HasMemory) (hcut : rest.length < n) :
    Hangs 4 (readExceptionString oom) s := by
  obtain ⟨htake, hrest, hlen⟩ := take_word hin
  refine (gives_readAll hlen).bind_hangs (n := 0) ?_
  dsimp only
  rw [if_neg (by decide)]
  refine (gives_malloc (s := s.dropping 4) hmem).bind_hangs (n := 0) ?_
  rw [if_neg (by decide), htake, swapped_length hn]
  exact (hangs_readAll (s := (s.dropping 4).tookMemory) (hrest ▸ hcut)).bind

/-- A string that is all there is read. -/
theorem gives_readExceptionString (oom : Diag) {string rest : List UInt8}
    (hn : string.length < 2 ^ 31) (hin : s.incoming = lengthPrefixed string ++ rest)
    (hmem : s.HasMemory) :
    Gives (4 + string.length) (readExceptionString oom) s (some (string ++ [0]))
      ((s.dropping 4).tookMemory.dropping string.length) := by
  rw [lengthPrefixed, List.append_assoc] at hin
  obtain ⟨htake, hrest, hlen⟩ := take_word hin
  have hbody : string.length ≤ (s.dropping 4).tookMemory.incoming.length := by
    rw [Conn.incoming_tookMemory, hrest, List.length_append]
    omega
  have hstring : (s.dropping 4).tookMemory.incoming.take string.length = string := by
    rw [Conn.incoming_tookMemory, hrest, List.take_left]
  refine (gives_readAll hlen).bind ?_
  dsimp only
  rw [if_neg (by decide)]
  refine ((gives_malloc (s := s.dropping 4) hmem).bind (n := string.length) ?_).mono (by omega)
  rw [if_neg (by decide), htake, swapped_length hn]
  refine (gives_readAll hbody).bind (n := 0) ?_
  dsimp only
  rw [if_neg (by decide), hstring]
  exact gives_pure _ _

/-- A string that is cut short is waited for, unless there is no memory for it. -/
theorem readExceptionString_cut (oom : Diag) {string : List UInt8} (hn : string.length < 2 ^ 31)
    (hcut : Format.Cut s.incoming (lengthPrefixed string)) :
    if 4 ≤ s.incoming.length ∧ ¬ s.HasMemory then
      Gives 4 (readExceptionString oom) s none ((s.dropping 4).tookMemory.printing oom)
    else Hangs 4 (readExceptionString oom) s := by
  rcases hcut.append with hword | ⟨rest, hin, hbody⟩
  · have hlt : s.incoming.length < 4 := hword.length_lt
    rw [if_neg (by omega)]
    exact (hangs_readExceptionString_word oom hlt).mono (by omega)
  · have hlen : 4 ≤ s.incoming.length := (take_word hin).2.2
    split
    · rename_i hnull
      exact gives_readExceptionString_null oom hin hnull.2
    · rename_i hmem
      exact hangs_readExceptionString_body oom hn hin (not_not.mp fun h => hmem ⟨hlen, h⟩)
        hbody.length_lt

/-- The two strings of an exception as they are sent. -/
def exceptionBody (class_ stack : List UInt8) : List UInt8 :=
  lengthPrefixed class_ ++ lengthPrefixed stack

variable {class_ stack rest : List UInt8}

/-- The connection after the first string of an exception. -/
def Conn.afterClass (s : Conn) (class_ : List UInt8) : Conn :=
  (s.dropping 4).tookMemory.dropping class_.length

theorem Conn.incoming_afterClass {s : Conn} (hin : s.incoming = lengthPrefixed class_ ++ rest) :
    (s.afterClass class_).incoming = rest := by
  simp [afterClass, hin, lengthPrefixed, List.drop_append]

theorem readException_of_null (h : Gives n (readExceptionString .outOfMemoryClass) s none u) :
    Gives n readException s none u :=
  h.bind (n := 0) (gives_pure _ _)

theorem readException_of_hangs (h : Hangs n (readExceptionString .outOfMemoryClass) s) :
    Hangs n readException s :=
  h.bind

/-- Both strings are read when they are there and memory is. -/
theorem gives_readException (hclass : class_.length < 2 ^ 31) (hstack : stack.length < 2 ^ 31)
    (hin : s.incoming = exceptionBody class_ stack ++ rest) (hmem : s.HasMemory)
    (hmem' : s.tookMemory.HasMemory) :
    Gives (exceptionBody class_ stack).length readException s
      (some (class_ ++ [0], stack ++ [0])) ((s.afterClass class_).afterClass stack) := by
  rw [exceptionBody, List.append_assoc] at hin
  have hrest := Conn.incoming_afterClass hin
  rw [exceptionBody, List.length_append, lengthPrefixed_length, lengthPrefixed_length]
  refine (gives_readExceptionString _ hclass hin hmem).bind ?_
  refine ((gives_readExceptionString (s := s.afterClass class_) _ hstack hrest hmem').bind
    (n := 0) (gives_pure _ _))

/-- Without memory for one of the strings there is no exception. -/
theorem gives_readException_null (hclass : class_.length < 2 ^ 31)
    (hin : s.incoming = exceptionBody class_ stack ++ rest)
    (hmem : ¬ (s.HasMemory ∧ s.tookMemory.HasMemory)) :
    ∃ u, Gives (exceptionBody class_ stack).length readException s none u ∧
      u.proxy = s.proxy := by
  rw [exceptionBody, List.append_assoc] at hin
  rw [exceptionBody, List.length_append, lengthPrefixed_length, lengthPrefixed_length]
  by_cases hfirst : s.HasMemory
  · have hrest := Conn.incoming_afterClass hin
    rw [lengthPrefixed, List.append_assoc] at hrest
    have hsecond : ¬ (s.afterClass class_).HasMemory := fun h => hmem ⟨hfirst, h⟩
    have hnull := gives_readExceptionString_null (s := s.afterClass class_) .outOfMemoryStack
      hrest hsecond
    refine ⟨_, Gives.mono ((gives_readExceptionString _ hclass hin hfirst).bind
      (hnull.bind (n := 0) (gives_pure _ _))) (by omega), ?_⟩
    rfl
  · rw [lengthPrefixed, List.append_assoc] at hin
    exact ⟨_, (readException_of_null (gives_readExceptionString_null _ hin hfirst)).mono (by omega),
      rfl⟩

/-- Memory runs out for a string whose length has arrived. -/
def NoMemoryFor (s : Conn) (class_ : List UInt8) : Prop :=
  4 ≤ s.incoming.length ∧ ¬ s.HasMemory ∨
    (lengthPrefixed class_).length + 4 ≤ s.incoming.length ∧ ¬ s.tookMemory.HasMemory

/-- An exception that is cut short is waited for, unless memory runs out. -/
theorem readException_cut (hclass : class_.length < 2 ^ 31) (hstack : stack.length < 2 ^ 31)
    (hcut : Format.Cut s.incoming (exceptionBody class_ stack)) :
    (NoMemoryFor s class_ → ∃ n u, Gives n readException s none u ∧ u.proxy = s.proxy) ∧
      (¬ NoMemoryFor s class_ → ∃ n, Hangs n readException s) := by
  rcases hcut.append with hfirst | ⟨rest, hin, hsecond⟩
  · have hlt := hfirst.length_lt
    have hstring := readExceptionString_cut .outOfMemoryClass hclass hfirst
    split at hstring
    · rename_i hnull
      refine ⟨fun _ => ⟨_, _, readException_of_null hstring, rfl⟩, fun h => ?_⟩
      exact absurd (.inl hnull) h
    · rename_i hmem
      refine ⟨?_, fun _ => ⟨_, readException_of_hangs hstring⟩⟩
      rintro (hnull | ⟨hlen, -⟩)
      · exact absurd hnull hmem
      · omega
  · have hlen : s.incoming.length = (lengthPrefixed class_).length + rest.length := by
      rw [hin, List.length_append]
    have hlen' := lengthPrefixed_length class_
    by_cases hmem : s.HasMemory
    · have hrest := Conn.incoming_afterClass hin
      have hread := gives_readExceptionString .outOfMemoryClass hclass hin hmem
      have hstring := readExceptionString_cut (s := s.afterClass class_) .outOfMemoryStack hstack
        (hrest ▸ hsecond)
      rw [hrest] at hstring
      split at hstring
      · rename_i hnull
        refine ⟨fun _ => ⟨_, _, hread.bind (n := 4) (hstring.bind (n := 0) (gives_pure _ _)), ?_⟩,
          fun h => ?_⟩
        · rfl
        · exact absurd (.inr ⟨by omega, hnull.2⟩) h
      · rename_i hnull
        refine ⟨?_, fun _ => ⟨_, hread.bind_hangs hstring.bind⟩⟩
        rintro (⟨-, h⟩ | ⟨h, h'⟩)
        · exact absurd hmem h
        · exact absurd ⟨by omega, h'⟩ hnull
    · have hnull := hin
      rw [lengthPrefixed, List.append_assoc] at hnull
      have hread := readException_of_null
        (gives_readExceptionString_null .outOfMemoryClass hnull hmem)
      exact ⟨fun _ => ⟨_, _, hread, rfl⟩, fun h => absurd (.inl ⟨by omega, hmem⟩) h⟩

end HdClient
