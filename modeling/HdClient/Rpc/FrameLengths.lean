-- SUMMARY: Whether the length in front of a request is that of the request, also where it is too long for an int.
import HdClient.Rpc.Outbound

/-! # Frame lengths

Four lengths are added up in an `int`, and the sum is sent without a look at it. -/

namespace HdClient

open Pbc Conn

variable {header request : List UInt8} {s : Conn}

/-- What a request is made of behind its length. -/
def requestBody (header request : List UInt8) : List UInt8 :=
  (Varint.encode header.length ++ header) ++ (Varint.encode request.length ++ request)

/-- `write_request` fails before anything is sent, or it sends a word that, as an
`int`, is the number of the bytes sent behind it. -/
def StatesLength (header request : List UInt8) (s : Conn) : Prop :=
  ∃ rc t, (writeRequest (some header) (sliceLen header) (some request) (sliceLen request)).run s =
      .ret rc t ∧
    (rc ≠ 0 ∧ t.outgoing = s.outgoing ∨
      ∃ word rest, word.length = 4 ∧ rest = requestBody header request ∧
        t.outgoing = s.outgoing ++ word ++ rest ∧
        (intEndianSwap (Word.ofLe word)).toInt = rest.length)

theorem requestBody_length (header request : List UInt8) :
    (requestBody header request).length = (Varint.encode header.length).length + header.length +
      ((Varint.encode request.length).length + request.length) := by
  simp only [requestBody, List.length_append]

theorem requestChunks_flatMap (header request : List UInt8) :
    (requestChunks header request).flatMap (·.1) =
      Word.be32 (requestBody header request).length ++ requestBody header request := by
  simp [requestChunks, requestBody]

theorem requestChunks_sum (header request : List UInt8) :
    ((requestChunks header request).map (·.1.length)).sum =
      4 + (requestBody header request).length := by
  rw [← List.length_flatMap, requestChunks_flatMap, List.length_append, Word.be32_length]

/-- Where no write fails and none is left waiting, everything is sent. -/
theorem writeRequest_sends (hheader : header.length < 2 ^ 31) (hrequest : request.length < 2 ^ 31)
    (hsound : Transfer.Sound s.writes)
    (hends : ∀ t, (writeRequest (some header) (sliceLen header) (some request)
      (sliceLen request)).run s ≠ .wait t) :
    ∃ t, (writeRequest (some header) (sliceLen header) (some request) (sliceLen request)).run s =
        .ret 0 t ∧
      t.outgoing = s.outgoing ++ Word.be32 (requestBody header request).length ++
        requestBody header request := by
  have hsend := sendChunks_run (pure 0) (requestChunks header request) s
  rw [← writeRequest_run hheader hrequest, requestChunks_flatMap] at hsend
  cases hend : (Transfer.carryAll s.writes
      ((requestChunks header request).map (·.1.length))).ending with
  | failed => exact absurd hend (hsound.carryAll_not_failed _)
  | waiting => exact absurd (hsend.waiting hend) (hends _)
  | done =>
      have hcarried := Transfer.carryAll_of_done hend
      refine ⟨_, hsend.done hend, ?_⟩
      simp only [Conn.sent, hcarried, requestChunks_sum, List.append_assoc]
      rw [List.take_of_length_le]
      rw [List.length_append, Word.be32_length]

/-- A script of answers that each carry something does not leave a request waiting
if it is long enough. -/
theorem writeRequest_ends (hheader : header.length < 2 ^ 31)
    (hrequest : request.length < 2 ^ 31) (hlive : Transfer.Live s.writes)
    (hlong : 4 + (requestBody header request).length ≤ s.writes.length) (t : Conn) :
    (writeRequest (some header) (sliceLen header) (some request) (sliceLen request)).run s ≠
      .wait t := by
  have hsend := sendChunks_run (pure 0) (requestChunks header request) s
  rw [← requestChunks_sum] at hlong
  rw [writeRequest_run hheader hrequest, hsend.done (hlive.carryAll_done hlong).1]
  exact nofun

/-- What was sent tells the length if there are fewer than 2^31 bytes of it. -/
theorem statesLength_of_sends {t : Conn}
    (hrun : (writeRequest (some header) (sliceLen header) (some request) (sliceLen request)).run s =
      .ret 0 t)
    (hout : t.outgoing = s.outgoing ++ Word.be32 (requestBody header request).length ++
      requestBody header request) :
    StatesLength header request s ↔ (requestBody header request).length < 2 ^ 31 := by
  rw [← lengthWord_iff]
  constructor
  · rintro ⟨rc, u, hret, hstates⟩
    rw [hrun] at hret
    cases hret
    rcases hstates with ⟨hrc, -⟩ | ⟨word, rest, hword, rfl, hsent, hlength⟩
    · exact absurd rfl hrc
    · rw [hout] at hsent
      have hhead := List.append_cancel_right hsent
      rwa [← List.append_cancel_left hhead] at hlength
  · intro hlength
    exact ⟨0, t, hrun, .inr ⟨_, _, Word.be32_length _, rfl, hout, hlength⟩⟩

/-- For writes that never fail, the length is stated exactly if the two varints, the
header and the request take fewer than 2^31 bytes. -/
theorem statesLength_iff (hheader : header.length < 2 ^ 31) (hrequest : request.length < 2 ^ 31)
    (hsound : Transfer.Sound s.writes)
    (hends : ∀ t, (writeRequest (some header) (sliceLen header) (some request)
      (sliceLen request)).run s ≠ .wait t) :
    StatesLength header request s ↔
      (Varint.encode header.length).length + header.length +
        ((Varint.encode request.length).length + request.length) < 2 ^ 31 := by
  obtain ⟨t, hrun, hout⟩ := writeRequest_sends hheader hrequest hsound hends
  rw [statesLength_of_sends hrun hout, requestBody_length]

/-- A socket that takes one byte at a time, `n` times. -/
def bytewiseConn (n : ℕ) : Conn where
  proxy := ⟨0, .client, .rm, .lit "rm", -1⟩
  incoming := []
  outgoing := []
  reads := []
  writes := List.replicate n (.upTo 1)
  allocs := []
  printed := []

private theorem bytewiseConn_live (n : ℕ) : Transfer.Live (bytewiseConn n).writes :=
  Transfer.live_replicate (by decide) n

/-- A header and a request of one byte each, behind the length four. -/
theorem statesLength_bytes : StatesLength [1] [2] (bytewiseConn 8) :=
  (statesLength_iff (by decide) (by decide) (bytewiseConn_live 8).sound
    (writeRequest_ends (by decide) (by decide) (bytewiseConn_live 8) (by decide))).mpr
    (by decide)

/-- Behind an empty header, a request of 2^31 - 1 bytes is sent with a length that
is negative as an `int`. -/
theorem long_request_misstated : ¬ ∀ (header request : List UInt8) (s : Conn),
    header.length < 2 ^ 31 → request.length < 2 ^ 31 → Transfer.Sound s.writes →
    (∀ t, (writeRequest (some header) (sliceLen header) (some request)
      (sliceLen request)).run s ≠ .wait t) →
    StatesLength header request s := by
  intro hclaim
  obtain ⟨request, hlength⟩ : ∃ request : List UInt8, request.length = 2 ^ 31 - 1 :=
    ⟨List.replicate (2 ^ 31 - 1) 0, List.length_replicate⟩
  have hbody := requestBody_length [] request
  have hvint := vint_length (by omega : request.length < 2 ^ 31)
  have hone : (Varint.encode ([] : List UInt8).length).length = 1 := by decide
  rw [hone, List.length_nil] at hbody
  obtain ⟨s, hlive, hlong⟩ : ∃ s : Conn, Transfer.Live s.writes ∧
      4 + (requestBody [] request).length ≤ s.writes.length :=
    ⟨bytewiseConn (4 + (requestBody [] request).length), bytewiseConn_live _,
      Nat.le_of_eq List.length_replicate.symm⟩
  have hempty : ([] : List UInt8).length < 2 ^ 31 := by decide
  have hends := writeRequest_ends hempty (by omega) hlive hlong
  obtain ⟨t, hrun, hout⟩ := writeRequest_sends hempty (by omega) hlive.sound hends
  have hlt := (statesLength_of_sends hrun hout).mp
    (hclaim [] request s hempty (by omega) hlive.sound hends)
  omega

end HdClient
