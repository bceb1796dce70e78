-- SUMMARY: Exceptions in the form that the header's description gives them, null strings included, and which of them read_exception decodes.
import HdClient.Client.RawVarint

/-! # Exceptions

A server sends the class and the stack trace of an exception one after the
other. Either of them may be null, for which it sends a length of minus one. -/

namespace HdClient

open Pbc Conn

variable {class_ stack : Option (List UInt8)} {rest : List UInt8} {s u : Conn}

/-- A string as it is sent. -/
def nullablePrefixed : Option (List UInt8) → List UInt8
  | none => Word.be32 (2 ^ 32 - 1)
  | some string => lengthPrefixed string

/-- The class and the stack trace as they are sent. -/
def sentException (class_ stack : Option (List UInt8)) : List UInt8 :=
  nullablePrefixed class_ ++ nullablePrefixed stack

/-- There is room in an `int` for the length of a string and its terminating zero. -/
def StringFits (string : Option (List UInt8)) : Prop :=
  ∀ bytes, string = some bytes → bytes.length + 1 < 2 ^ 31

/-- The memory that is stored for a string: it and a zero, or an empty string for a null one. -/
def StoredAs : Option (List UInt8) → List UInt8 → Prop
  | none, mem => cstr mem = []
  | some string, mem => mem = string ++ [0]

/-- However the bytes of an exception arrive in front of `rest`, `read_exception`
stores its two strings and stops behind it. -/
def DecodesException (s : Conn) (class_ stack : Option (List UInt8)) (rest : List UInt8) : Prop :=
  ∃ c k u, Gives (sentException class_ stack).length readException s (some (c, k)) u ∧
    StoredAs class_ c ∧ StoredAs stack k ∧ u.incoming = rest

private theorem minus_one_negative : (BitVec.ofNat 32 (2 ^ 32 - 1)).toInt < 0 := by decide

/-- Behind the length of a null string comes what follows the string. -/
private theorem incoming_after_null (hin : s.incoming = nullablePrefixed none ++ rest) :
    (s.dropping 4).incoming = rest := by
  rw [Conn.incoming_dropping, hin]
  exact List.drop_left' rfl

/-- A null class ends the reading behind its length. -/
theorem gives_readException_nullClass (hin : s.incoming = sentException none stack ++ rest)
    (hmem : s.HasMemory) :
    ∃ u, Gives 4 readException s none u ∧ u.incoming = nullablePrefixed stack ++ rest := by
  rw [sentException, List.append_assoc] at hin
  exact ⟨_, readException_of_null
    (gives_readExceptionString_negative .outOfMemoryClass hin hmem minus_one_negative),
    incoming_after_null hin⟩

/-- A null stack trace throws away the class that has been read. -/
theorem gives_readException_nullStack {string : List UInt8} (hlen : string.length < 2 ^ 31)
    (hin : s.incoming = sentException (some string) none ++ rest) (hmem : s.HasMemory)
    (hmem' : s.tookMemory.HasMemory) :
    ∃ u, Gives (4 + string.length + 4) readException s none u ∧ u.incoming = rest := by
  rw [sentException, List.append_assoc] at hin
  have hrest := Conn.incoming_afterClass hin
  have hstack := gives_readExceptionString_negative (s := s.afterClass string) .outOfMemoryStack
    hrest hmem' minus_one_negative
  exact ⟨_, (gives_readExceptionString .outOfMemoryClass hlen hin hmem).bind
    (hstack.bind (n := 0) (gives_pure _ _)), incoming_after_null hrest⟩

/-- Exceptions are decoded exactly when neither of their strings is null. -/
theorem decodesException_iff (hclass : StringFits class_) (hstack : StringFits stack)
    (hin : s.incoming = sentException class_ stack ++ rest) (hmem : ∀ a ∈ s.allocs, a = true) :
    DecodesException s class_ stack rest ↔ class_ ≠ none ∧ stack ≠ none := by
  have hfirst := hasMemory_of_all hmem
  have hsecond := hasMemory_tookMemory_of_all hmem
  constructor
  · rintro ⟨c, k, u, hgives, -⟩
    cases class_ with
    | none =>
        obtain ⟨v, hnone, -⟩ := gives_readException_nullClass hin hfirst
        exact absurd (hgives.unique hnone) (by simp)
    | some string =>
        refine ⟨by simp, ?_⟩
        rintro rfl
        have hlen := hclass string rfl
        obtain ⟨v, hnone, -⟩ := gives_readException_nullStack (by omega) hin hfirst hsecond
        exact absurd (hgives.unique hnone) (by simp)
  · rintro ⟨hne, hne'⟩
    obtain ⟨string, rfl⟩ := Option.ne_none_iff_exists'.mp hne
    obtain ⟨trace, rfl⟩ := Option.ne_none_iff_exists'.mp hne'
    have hlen := hclass string rfl
    have hlen' := hstack trace rfl
    refine ⟨_, _, _, gives_readException (by omega) (by omega) hin hfirst hsecond, rfl, rfl, ?_⟩
    have hrest := Conn.incoming_afterClass (s := s)
      (by rw [hin, sentException, List.append_assoc]; rfl)
    exact Conn.incoming_afterClass hrest

/-- A class of one letter and an empty stack trace, in front of a byte. -/
theorem decodesException_letter :
    DecodesException (sendingConn [0, 0, 0, 1, 69, 0, 0, 0, 0, 42]) (some [69]) (some []) [42] :=
  (@decodesException_iff (some [69]) (some []) [42]
    (sendingConn [0, 0, 0, 1, 69, 0, 0, 0, 0, 42]) (by simp [StringFits]) (by simp [StringFits])
    (by decide) (by simp [sendingConn])).mpr (by simp)

/-- An exception with a null stack trace is not decoded. -/
theorem null_trace_refused : ¬ ∀ (s : Conn) (class_ stack : Option (List UInt8)) (rest : List UInt8),
    StringFits class_ → StringFits stack → s.incoming = sentException class_ stack ++ rest →
    (∀ a ∈ s.allocs, a = true) → DecodesException s class_ stack rest := by
  intro hclaim
  have hin : (sendingConn [0, 0, 0, 1, 69, 255, 255, 255, 255]).incoming =
      sentException (some [69]) none ++ [] := by decide
  obtain ⟨c, k, u, hgives, -⟩ := hclaim _ (some [69]) none [] (by simp [StringFits])
    (by simp [StringFits]) hin (by simp [sendingConn])
  obtain ⟨v, hnone, -⟩ := gives_readException_nullStack (by decide) hin (by decide)
    (by decide)
  exact absurd (hgives.unique hnone) (by simp)

end HdClient
